import Moire.Config.Basic
import Moire.Yaml.Reader
import Moire.Yaml.Value

/-!
# Settings from YAML

Sections are mappings, whose unknown keys are ignored and whose known ones may stand there once. A
value has to be of the kind that its key asks for. In the section of the model every scalar is given
its own kind first, and that has to fit.
-/

namespace Moire

namespace Config

/-- The keys of a continuum model. -/
def continuumKeys : List String :=
  ["twist_angle", "fermi_velocity", "interlayer_coupling", "lattice_constant", "loop_times",
    "interval_k"]

/-- The keys of a tight-binding model. -/
def tightBindingKeys : List String :=
  ["m0", "r", "intra_hopping", "inter_hopping", "lattice_constant", "interlayer_distance",
    "interval_k", "max_lattice_rounds"]

/-- A parameter of a model. -/
abbrev Parameter := String × Yaml.Value

/-- The parameter under a name, or a default if it is missing. A second one is an error. -/
def parameter? {β : Type} (parameters : List Parameter) (read : Yaml.Value → Option β)
    (name : String) (default : β) : Option β :=
  match parameters.filter fun (key, _) ↦ key = name with
  | [] => some default
  | [(_, value)] => read value
  | _ => none

/-- The parameters of a continuum model. -/
def readContinuum? (parameters : List Parameter) : Option (Continuum.Params Float) :=
  Continuum.Params.ofFields (parameter? parameters Yaml.Value.real?)
    (parameter? parameters (Yaml.Value.countIn? Word.unsigned64))

/-- The parameters of a tight-binding model. -/
def readTightBinding? (parameters : List Parameter) : Option (TightBinding.Params Float) :=
  TightBinding.Params.ofFields (parameter? parameters Yaml.Value.real?)
    (parameter? parameters (Yaml.Value.countIn? Word.unsigned64))
    (parameter? parameters (Yaml.Value.countIn? Word.unsigned32))

/-- The name of a parameter of a model under one of its keys: a text, or the place of the parameter
among all of them. -/
def parameterName? (keys : List String) : Yaml.Value → Option String
  | .text name => some name
  | .count n => some (keys.getD n "")
  | _ => none

/-- The parameters of a model of a kind, from what its section holds. -/
def readKind? (kind : String) (parameters : List String → Option (List Parameter)) :
    Option (TwistedParams Float) := do
  if kind = "continuum" then return .continuum (← readContinuum? (← parameters continuumKeys))
  else if kind = "tight_binding" then
    return .tightBinding (← readTightBinding? (← parameters tightBindingKeys))
  else none

/-- The levels of collections inside of the section of the model. With that section and the document
around it they are at most 128. -/
def modelDepth : Nat := 126

/-- An entry of the section of the model: the name of the kind, or a key with its value. -/
def readEntry? (entry : Yaml × Yaml) : Yaml.Reading (String ⊕ (Yaml.Value × Yaml.Value)) := do
  match ← Yaml.Value.ofNode modelDepth entry.1 with
  | .text "type" => return .inl (← Yaml.text? entry.2)
  | key => return .inr (key, ← Yaml.Value.ofNode modelDepth entry.2)

/-- The section of the model: a mapping in which a key names the kind, or a list of the kind and of
the first parameters. -/
def readModel? (node : Yaml) : Yaml.Reading (TwistedParams Float) := do
  match ← Yaml.follow node with
  | .mapping tag entries =>
      if !Yaml.Value.isOpenTo tag then failure
      let parts ← entries.mapM readEntry?
      match parts.filterMap Sum.getLeft? with
      | [kind] =>
          readKind? kind fun keys ↦
            (parts.filterMap Sum.getRight?).mapM fun (key, value) ↦ do
              return (← parameterName? keys key, value)
      | _ => failure
  | .list tag (kind :: values) =>
      if !Yaml.Value.isOpenTo tag then failure
      let kind ← Yaml.text? kind
      let values ← values.mapM (Yaml.Value.ofNode modelDepth)
      readKind? kind fun keys ↦
        if values.length ≤ keys.length then some (keys.zip values) else none
  | _ => failure

/-- A window of bands. -/
def readWindow? (node : Yaml) : Yaml.Reading BandWindow := do
  let entries ← Yaml.entries? node
  let bound (name : String) : Yaml.Reading Int := do
    Yaml.intIn? Word.signed64 (← ← Yaml.entry? entries name)
  return ⟨← bound "lower", ← bound "upper"⟩

/-- The parameters of the observables. -/
def readObservables? (node : Yaml) : Yaml.Reading (ObservableParams Float) := do
  let entries ← Yaml.entries? node
  let count (name : String) := Yaml.optional? entries name Yaml.count?
  let real (name : String) := Yaml.optional? entries name Yaml.real?
  let range (name : String) := Yaml.optional? entries name (Yaml.pair? Yaml.real?)
  return {
    kpNum := ← count "kp_num"
    pathDensity := ← real "path_density"
    bandWindow := ← Yaml.optional? entries "band_window" readWindow?
    shiftToHalfFilling := ← Yaml.optional? entries "shift_to_half_filling" Yaml.truth?
    dosBins := ← count "dos_bins"
    dosRange := ← range "dos_range"
    jdosRange := ← range "jdos_range"
    numHalf := ← count "num_half"
    photonEnergies := ← Yaml.optional? entries "photon_energies" (Yaml.list? Yaml.real?)
    broadening := ← real "broadening"
    conductivityEta := ← real "conductivity_eta"
    ramanPhotonEnergy := ← real "raman_photon_energy"
    ramanPhononEnergy := ← real "raman_phonon_energy"
    ramanGamma := ← real "raman_gamma"
    ramanInnerTransitions := ← count "raman_inner_transitions"
    chernBand :=
      ← Yaml.optional? entries "chern_band" (Yaml.intIn? Word.signed32)
    chernKpNum := ← count "chern_kp_num"
    fermiProportion := ← real "fermi_proportion"
    patchRadius := ← real "patch_radius"
    patchDensity := ← count "patch_density"
    transitionPair := ← Yaml.optional? entries "transition_pair" (Yaml.pair? Yaml.count?) }

/-- The section of the workers. -/
def readParallel? (node : Yaml) : Yaml.Reading ParallelParams := do
  let entries ← Yaml.entries? node
  return ⟨← Yaml.optional? entries "workers" Yaml.count?⟩

/-- The section of stored results. -/
def readCache? (node : Yaml) : Yaml.Reading CacheParams := do
  let entries ← Yaml.entries? node
  return {
    enabled := ← Yaml.optional? entries "enabled" Yaml.truth?
    directory := ← Yaml.optional? entries "directory" Yaml.text?
    refresh := ← Yaml.optional? entries "refresh" Yaml.truth? }

/-- A task. -/
def readTask? (node : Yaml) : Yaml.Reading Task := do
  Task.ofName? (← Yaml.name? node)

/-- The settings that a document holds. -/
def ofYaml? (node : Yaml) : Yaml.Reading (Config Float) := do
  let entries ← Yaml.entries? node
  let model ← readModel? (← ← Yaml.entry? entries "model")
  return {
    model
    tasks := ← Yaml.orDefault? entries "tasks" (Yaml.list? readTask?) []
    observables := ← Yaml.optional? entries "observables" readObservables?
    parallel := ← Yaml.optional? entries "parallel" readParallel?
    cache := ← Yaml.optional? entries "cache" readCache? }

/-- The settings that a text holds. -/
def parse? (source : String) : Option (Config Float) := do
  let document ← Yaml.parse? source
  ((ofYaml? document.root).run document).run' 0

end Config

end Moire
