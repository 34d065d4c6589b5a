import Moire.CommandLine.Arguments
import Moire.Config.Reader
import Moire.Eigen.Hermitian
import Moire.Report.Document
import Moire.Report.Summary
import Moire.Report.Transfer
import Moire.Run.Model
import Moire.Run.Task
import Moire.Run.Workers
import Moire.Store.Folder

/-!
# The program

A run reads its arguments and its settings, builds the model, carries out the tasks one after the
other, tells a summary and exports the report. It changes a tree of files and tells messages. The
first failure ends it, and is reported with what was being done.
-/

namespace Moire

/-- Why a run ended early. -/
inductive Stop where
  | usage (cause : ArgumentError)
  | unreadable (path reason : String)
  | malformed
  /-- A twist angle is given for a model whose angle follows from its indices. -/
  | fixedAngle (m0 r : Nat)
  | model (cause : Failure)
  | workers (cause : Failure)
  | store (directory : String) (cause : Failure)
  | task (task : Task) (cause : Failure)
  | transfer (cause : Failure)
  deriving Repr, Inhabited

namespace Stop

/-- What was being done, outermost first. -/
def context : Stop → List String
  | .usage _ => []
  | .unreadable path reason => ["Unable to read configuration file: " ++ path, reason]
  | .malformed => ["Failed to parse configuration file"]
  | .fixedAngle m0 r =>
      ["--twist-angle does not apply to the tight-binding model; its angle is fixed by " ++
        s!"m0 = {m0} and r = {r}"]
  | .model _ => ["Failed to build the band model"]
  | .workers _ => []
  | .store directory _ => ["Unable to open cache directory: " ++ directory]
  | .task failed _ => ["Task " ++ failed.title ++ " failed"]
  | .transfer _ => []

/-- The failure that ended the run. -/
def failure? : Stop → Option Failure
  | .model cause | .workers cause | .store _ cause | .task _ cause | .transfer cause => some cause
  | _ => none

/-- The exit code: two for mistakes in the arguments, and one for other causes; a broken
precondition has its own. -/
def code : Stop → Nat
  | .usage cause => if cause.isMistake then 2 else 0
  | stop =>
      match stop.failure? with
      | some (.fault _) => 101
      | _ => 1

end Stop

/-- The sentences in which a cause is reported, outermost first. -/
def Error.links : Error → List String
  | .unreached i j rounds => [(Error.unreached i j rounds).message, unreachedText i j rounds]
  | cause => [cause.message]

/-- The sentences in which the end of a run is reported, outermost first. A broken precondition is
not reported in sentences. -/
def Stop.links (stop : Stop) : List String :=
  match stop.failure? with
  | some (.fault _) => []
  | some (.error cause) => stop.context ++ cause.links
  | none => stop.context

/-- Where messages go. -/
inductive LogTarget where
  | terminal
  | file (path : String)
  | nowhere
  deriving DecidableEq, Repr, Inhabited

/-- The files, the messages and where the messages go, in the course of a run. -/
structure Workplace where
  files : FileTree
  log : Log := #[]
  target : LogTarget := .nowhere

/-- A step of the program. -/
abbrev Program := ExceptT Stop (StateM Workplace)

namespace Program

/-- Carry out a computation that tells messages. -/
def logged {β : Type} (wrap : Failure → Stop) (work : Logged β) : Program β := fun place ↦
  let (result, log) := work place.log
  (result.mapError wrap, { place with log })

/-- Tell a message. -/
def tell (message : String) : Program Unit := fun place ↦
  (.ok (), { place with log := place.log.tell message })

/-- Change the files. -/
def store (change : FileTree → Except Stop FileTree) : Program Unit := fun place ↦
  match change place.files with
  | .ok files => (.ok (), { place with files })
  | .error stop => (.error stop, place)

end Program

/-- The settings with the options of the command line in place of what they override. -/
def Config.override (config : Config Float) (options : Options) : Except Stop (Config Float) := do
  let parallel := match options.workers with
    | some n => some ⟨some n⟩
    | none => config.parallel
  let observables := match options.kpNum with
    | some n => some { config.observables.getD .default with kpNum := some n }
    | none => config.observables
  let model ← match options.twistAngle, config.model with
    | none, model => .ok model
    | some angle, .continuum params => .ok (.continuum { params with twistAngle := angle })
    | some _, .tightBinding params => .error (.fixedAngle params.m0 params.r)
  let cache := config.cache.getD .default
  return { config with
    parallel, observables, model
    cache := some {
      directory := options.cacheDir.or cache.directory
      enabled := if options.noCache then some false else cache.enabled
      refresh := if options.refresh then some true else cache.refresh } }

/-- Read the settings. -/
def Options.loadConfig (options : Options) (files : FileTree) : Except Stop (Config Float) :=
  match files.read options.configFile with
  | .error cause => .error (.unreadable options.configFile cause.message)
  | .ok bytes =>
      match String.fromUTF8? bytes with
      | none => .error (.unreadable options.configFile "stream did not contain valid UTF-8")
      | some text =>
          match Config.parse? text with
          | none => .error .malformed
          | some config => config.withDefaults.override options

namespace Program

/-- Choose where messages go. A log file is emptied; if that is refused, there is no log. -/
def openLog (output : Option String) : Program Unit := fun place ↦
  match output with
  | none =>
      (.ok (), { place with
        target := .terminal, log := place.log.tell "Output will be printed to stdout" })
  | some path =>
      match place.files.write path .empty with
      | .ok files =>
          (.ok (), { place with
            files, target := .file path
            log := place.log.tell ("Output will be written to: " ++ path) })
      | .error _ => (.ok (), { place with target := .nowhere })

/-- Open the store of results, in memory or in a folder. -/
def openStore (config : Config Float) : Program ResultStore := do
  if config.cacheEnabled then
    let directory := config.cacheDirectory
    tell ("Caching results under " ++ directory)
    fun place ↦
      match PickleFolder.create place.files directory with
      | .error cause => (.error (.store directory cause), place)
      | .ok folder => (.ok (.folder folder), { place with files := folder.files })
  else return .memory .empty

/-- Carry out tasks one after the other, up to the first that fails. -/
def runAll {σ : Type} [ResultCache σ Float] (ctx : TaskContext Float) :
    List Task → Bench σ Float → Except Stop Unit × Bench σ Float
  | [], bench => (.ok (), bench)
  | task :: rest, bench =>
      match task.run ctx bench with
      | (.ok (), bench) => runAll ctx rest bench
      | (.error cause, bench) => (.error (.task task cause), bench)

/-- The files after work on a store. -/
def filesAfter (files : FileTree) : ResultStore → FileTree
  | .memory _ => files
  | .folder folder => folder.files

/-- Carry out tasks with the results in a store. -/
def runTasks (ctx : TaskContext Float) (tasks : List Task) (store : ResultStore) :
    Program (Report Float) := fun place ↦
  let (result, bench) := runAll ctx tasks ⟨⟨store, place.log⟩, .create ctx.model.toBandModel⟩
  (result.map fun _ ↦ bench.report,
    { place with files := filesAfter place.files bench.session.cache, log := bench.session.log })

/-- The steps of the program, given its arguments, the value that a scheduler sets and the number of
processors. -/
def steps (arguments : List String) (scheduler : Option String) (processors : Nat) :
    Program Unit := do
  let options ← match Options.parse arguments with
    | .ok options => pure options
    | .error cause => throw (.usage cause)
  let config ← fun place ↦ (options.loadConfig place.files, place)
  openLog options.output
  let model ← logged .model (TwistedModel.build config.model)
  let evaluator ← logged .workers (Evaluator.start config.workers scheduler processors)
  let results ← openStore config
  let ctx : TaskContext Float :=
    { model, evaluator, solve := hermitianSolver, sort := .insertion
      params := config.observableParams, refresh := config.cacheRefresh }
  let report ← runTasks ctx config.tasks results
  report.summary.forM tell
  if let some path := options.exportPath then
    store fun files ↦ (writeDocument .standard files path report.toJson).mapError .transfer
    tell ("Exported results to " ++ path)

end Program

/-- Run the program on a tree of files. The files and the messages are those at its end, whether it
ended early or not. -/
def runProgram (arguments : List String) (scheduler : Option String) (processors : Nat)
    (files : FileTree) : Except Stop Unit × Workplace :=
  Program.steps arguments scheduler processors { files }

end Moire
