import Mathlib
import Moire.CommandLine.Program
import Moire.Eigen.Hermitian
import Moire.Proofs.FolderLaws
import Moire.Proofs.OneWave
import Moire.Proofs.TableSizes

/-!
# Models that share a store

The key of a table has the name of the model and its angle to four decimals, but not its other
parameters. Two runs are compatible, `Launch.Compatible`, if their configurations agree in what they
both store wherever name and angle do not tell them apart; a quantity depends on all parameters but
the rounds that are allowed to the lattice and, for energies, the step of finite differences
(`TwistedParams.AgreeFor.alike`). Runs keep a lawful store trusted, `Program.trusted_runAll`, and on
two trusted stores they report the same, `Program.agree_runAll`. `Launch.shared_store` is the result
for the stores of the program, in memory and in a folder: a run on a store that compatible runs have
filled reports what it reports on an empty one. The last section shows that compatibility is needed,
with two models that differ in their velocity, and so is the condition on Raman sums.
-/

namespace Moire

/-! ## What tables depend on -/

namespace Lattice

/-- A search that succeeds has the target already or goes on after one more round. -/
theorem search_cases {target : LatticeIndex} {left : ℕ} {growth : Growth} {closure : Closure}
    (h : search target left growth = .ok closure) :
    (growth.visited.contains target = true ∧ closure = ⟨growth.indices, growth.rounds⟩) ∨
      (growth.visited.contains target ≠ true ∧ ∃ rest next, left = rest + 1 ∧
        growth.round = .ok next ∧ search target rest next = .ok closure) := by
  unfold search at h
  by_cases hfound : growth.visited.contains target = true
  · rw [if_pos hfound] at h
    cases h
    exact .inl ⟨hfound, rfl⟩
  · rw [if_neg hfound] at h
    cases left with
    | zero => cases h
    | succ rest =>
        obtain ⟨next, hnext, hrest⟩ := bind_eq_ok.mp h
        exact .inr ⟨hfound, rest, next, rfl, hnext, hrest⟩

/-- A target is reached in one way, whatever the number of rounds that are left. -/
theorem search_unique {target : LatticeIndex} {left left' : ℕ} {growth : Growth}
    {closure closure' : Closure} (h : search target left growth = .ok closure)
    (h' : search target left' growth = .ok closure') : closure = closure' := by
  induction left using Nat.strong_induction_on generalizing left' growth with
  | _ left ih =>
      rcases search_cases h with ⟨hfound, rfl⟩ | ⟨hnew, rest, next, rfl, hnext, hrest⟩ <;>
        rcases search_cases h' with ⟨hfound', rfl⟩ | ⟨hnew', rest', next', rfl, hnext', hrest'⟩
      · rfl
      · exact absurd hfound hnew'
      · exact absurd hfound' hnew
      · cases hnext.symm.trans hnext'
        exact ih rest (Nat.lt_succ_self rest) hrest hrest'

end Lattice

variable {α : Type} [Scalar α]

/-- A continuum model is the one of its parameters. -/
theorem TwistedModel.create_continuum_eq_ok {params : Continuum.Params α} {model : TwistedModel α}
    (h : create (.continuum params) = .ok model) : model = .continuum (.ofParams params) := by
  obtain ⟨built, hbuilt, h⟩ := bind_eq_ok.mp h
  obtain ⟨-, rfl⟩ := Continuum.Model.create_eq_ok.mp hbuilt
  cases h
  rfl

/-- A tight-binding model is the one that is built from its parameters. -/
theorem TwistedModel.create_tightBinding_eq_ok {params : TightBinding.Params α}
    {model : TwistedModel α} (h : create (.tightBinding params) = .ok model) :
    ∃ built, TightBinding.Model.create params = .ok built ∧ model = .tightBinding built := by
  obtain ⟨built, hbuilt, h⟩ := bind_eq_ok.mp h
  cases h
  exact ⟨built, hbuilt, rfl⟩

/-- The step of finite differences and the rounds that are allowed to the lattice are not used in
the construction of the model. -/
theorem TightBinding.Model.create_congr {params : Params α} {step : α} {rounds : ℕ}
    {model model' : Model α} (h : create params = .ok model)
    (h' : create { params with intervalK := step, maxLatticeRounds := rounds } = .ok model') :
    model' = { model with
      params := { params with intervalK := step, maxLatticeRounds := rounds } } := by
  obtain ⟨-, target, lattice, atoms, htarget, hlattice, hatoms, -, rfl⟩ := create_eq_ok h
  obtain ⟨-, target', lattice', atoms', htarget', hlattice', hatoms', -, rfl⟩ := create_eq_ok h'
  cases htarget.symm.trans htarget'
  cases Lattice.search_unique hlattice hlattice'
  cases hatoms.symm.trans hatoms'
  rfl

/-- The two configurations are the same as far as a quantity depends on them. Energies do not
depend on the step of finite differences, and nothing depends on the rounds that are allowed to the
lattice. -/
def TwistedParams.AgreeFor (quantity : Quantity) : TwistedParams α → TwistedParams α → Prop
  | .continuum params, .continuum params' =>
      { params with intervalK := params'.intervalK } = params' ∧
        (quantity.IsOptical → params.intervalK = params'.intervalK)
  | .tightBinding params, .tightBinding params' =>
      { params with
          intervalK := params'.intervalK
          maxLatticeRounds := params'.maxLatticeRounds } = params' ∧
        (quantity.IsOptical → params.intervalK = params'.intervalK)
  | _, _ => False

omit [Scalar α] in
/-- A configuration agrees with itself. -/
theorem TwistedParams.AgreeFor.refl (quantity : Quantity) (config : TwistedParams α) :
    config.AgreeFor quantity config := by
  cases config <;> exact ⟨rfl, fun _ ↦ rfl⟩

omit [Scalar α] in
/-- Agreement goes both ways. -/
theorem TwistedParams.AgreeFor.symm {quantity : Quantity} {config config' : TwistedParams α}
    (h : config.AgreeFor quantity config') : config'.AgreeFor quantity config := by
  cases config <;> cases config'
  case continuum.tightBinding => exact h
  case tightBinding.continuum => exact h
  all_goals
    obtain ⟨hconfig, hstep⟩ := h
    refine ⟨?_, fun hoptical ↦ (hstep hoptical).symm⟩
    rw [← hconfig]

/-- Contexts for configurations that are the same for a quantity are alike for it. -/
theorem TwistedParams.AgreeFor.alike {quantity : Quantity} {config config' : TwistedParams α}
    (h : config.AgreeFor quantity config') {ctx ctx' : TaskContext α}
    (hmodel : TwistedModel.create config = .ok ctx.model)
    (hmodel' : TwistedModel.create config' = .ok ctx'.model) (hsolve : ctx.solve = ctx'.solve) :
    ctx.Alike quantity ctx' := by
  obtain ⟨model, evaluator, solve, sort, params, refresh⟩ := ctx
  obtain ⟨model', evaluator', solve', sort', params', refresh'⟩ := ctx'
  cases config with
  | continuum config =>
      cases config' with
      | tightBinding _ => exact h.elim
      | continuum config' =>
          obtain ⟨hconfig, hstep⟩ := h
          cases TwistedModel.create_continuum_eq_ok hmodel
          cases TwistedModel.create_continuum_eq_ok hmodel'
          refine ⟨?_, hstep, rfl, rfl, hsolve⟩
          rw [← hconfig]
          rfl
  | tightBinding config =>
      cases config' with
      | continuum _ => exact h.elim
      | tightBinding config' =>
          obtain ⟨hconfig, hstep⟩ := h
          obtain ⟨built, hbuilt, hmodel⟩ := TwistedModel.create_tightBinding_eq_ok hmodel
          obtain ⟨built', hbuilt', hmodel'⟩ := TwistedModel.create_tightBinding_eq_ok hmodel'
          cases hmodel
          cases hmodel'
          rw [← hconfig] at hbuilt'
          have hparams : built.params = config := by
            obtain ⟨-, _, _, _, -, -, -, -, rfl⟩ := TightBinding.Model.create_eq_ok hbuilt
            rfl
          cases TightBinding.Model.create_congr hbuilt hbuilt'
          cases hparams
          exact ⟨rfl, hstep, rfl, rfl, hsolve⟩

/-- A run of tasks for a configuration from which a model can be built. -/
structure Launch (α : Type) [Scalar α] where
  config : TwistedParams α
  model : TwistedModel α
  built : TwistedModel.create config = .ok model
  evaluator : Evaluator
  params : ObservableParams α
  refresh : Bool
  tasks : List Task

namespace Launch

/-- The context of the tasks. -/
def context (launch : Launch α) (solve : Solver α) (sort : Sorter α) : TaskContext α :=
  ⟨launch.model, launch.evaluator, solve, sort, launch.params, launch.refresh⟩

/-- One of the tasks keeps the quantity in the store. -/
def Keeps (launch : Launch α) (quantity : Quantity) : Prop :=
  ∃ task ∈ launch.tasks, task.quantity? = some quantity

/-- What both runs keep in the store for models that have the same name and the same angle to four
decimals does not depend on which of the two models it is for. -/
def Compatible (first second : Launch α) : Prop :=
  ∀ quantity, first.Keeps quantity → second.Keeps quantity →
    first.model.toBandModel.name = second.model.toBandModel.name →
    Number.fixed 4 first.model.toBandModel.twistAngle =
      Number.fixed 4 second.model.toBandModel.twistAngle →
    first.config.AgreeFor quantity second.config

/-- Runs for configurations that are the same for a quantity have contexts that are alike. -/
theorem alike_of_agreeFor {quantity : Quantity} {first second : Launch α}
    (h : first.config.AgreeFor quantity second.config) (solve : Solver α) (sort : Sorter α) :
    (first.context solve sort).Alike quantity (second.context solve sort) :=
  h.alike first.built second.built rfl

/-- With the same request they store the quantity under the same keys. -/
theorem key_eq_of_agreeFor {quantity : Quantity} {first second : Launch α}
    (h : first.config.AgreeFor quantity second.config) (hparams : first.params = second.params)
    (solve : Solver α) (sort : Sorter α) (density : ℕ) :
    (first.context solve sort).key quantity density =
      (second.context solve sort).key quantity density := by
  have hbands := (alike_of_agreeFor h solve sort).bands
  unfold TaskContext.key
  rw [← hbands]
  obtain ⟨_, _, _, _, params, _, _⟩ := first
  cases hparams
  rfl

/-- A launch is compatible with itself. -/
theorem Compatible.refl (launch : Launch α) : launch.Compatible launch :=
  fun quantity _ _ _ _ ↦ .refl quantity launch.config

/-- Compatibility goes both ways. -/
theorem Compatible.symm {first second : Launch α} (h : first.Compatible second) :
    second.Compatible first :=
  fun quantity hkeeps hkeeps' hname hangle ↦
    (h quantity hkeeps' hkeeps hname.symm hangle.symm).symm

/-- Compatible runs with the same request compute the same rows for what they store under the same
key. -/
theorem Compatible.rows_eq [KeyLaws α] {first second : Launch α} (h : first.Compatible second)
    (hparams : first.params = second.params) {solve : Solver α} {sort : Sorter α}
    {quantity quantity' : Quantity} {density density' : ℕ}
    {compute compute' : Logged (List (List α))}
    (hkeeps : first.Keeps quantity) (hkeeps' : second.Keeps quantity')
    (hstores : (first.context solve sort).Stores quantity density compute)
    (hstores' : (second.context solve sort).Stores quantity' density' compute')
    (hkey : (first.context solve sort).key quantity density =
      (second.context solve sort).key quantity' density') {rows : List (List α)}
    (hrows : compute.result = .ok rows) : compute'.result = .ok rows := by
  obtain ⟨hname, hangle, rfl, rfl, hdetail⟩ := TaskContext.key_inj hkey
  have halike : (first.context solve sort).Alike quantity (second.context solve sort) :=
    alike_of_agreeFor (h quantity hkeeps hkeeps' hname hangle) solve sort
  have hphotons : (first.context solve sort).photons = (second.context solve sort).photons :=
    congrArg (fun params : ObservableParams α ↦ params.photonEnergies.getD []) hparams
  have hinner : (first.context solve sort).raman.inner = (second.context solve sort).raman.inner :=
    congrArg ObservableParams.ramanInnerTransitions hparams
  exact hstores.reproduces hstores' halike hdetail (fun _ ↦ hphotons) (fun _ _ ↦ hinner) #[] #[]
    rows hrows

/-- The contexts in which runs store a quantity. -/
def KeptBy (launches : List (Launch α)) (solve : Solver α) (sort : Sorter α) (quantity : Quantity)
    (ctx : TaskContext α) : Prop :=
  ∃ launch ∈ launches, launch.Keeps quantity ∧ ctx = launch.context solve sort

/-- A run is coherent with those that are compatible with it. -/
theorem coherent_keptBy {launches : List (Launch α)} {launch : Launch α}
    (hlaunch : launch ∈ launches) (hcompatible : ∀ other ∈ launches, other.Compatible launch)
    {quantity : Quantity} (hkeeps : launch.Keeps quantity)
    (hparams : quantity = .raman → launch.params.Unambiguous) (solve : Solver α) (sort : Sorter α) :
    Coherent (KeptBy launches solve sort) quantity (launch.context solve sort) := by
  refine ⟨⟨launch, hlaunch, hkeeps, rfl⟩, hparams, ?_⟩
  rintro _ ⟨other, hother, hkeeps', rfl⟩ hname hangle
  exact alike_of_agreeFor (hcompatible other hother quantity hkeeps' hkeeps hname hangle) solve sort

end Launch

/-! ## Runs on a shared store -/

variable {σ : Type} {plain : String → Prop} {refused : String → Option Failure}

section

variable [ResultCache σ α] {kept : StoredArray α → Prop} [LawfulCache σ plain kept]
  {V : Quantity → TaskContext α → Prop} {ctx : TaskContext α}

/-- Sessions that are compared: both have stores that can be trusted. -/
def BothTrusted (V : Quantity → TaskContext α → Prop) (refused : String → Option Failure)
    (s s' : Session σ) : Prop :=
  Trusted V refused s.cache ∧ Trusted V refused s'.cache

/-- What a task reports does not depend on which trusted store it finds. -/
theorem Task.agree_trusted [KeyLaws α] {task : Task} (hkeep : ctx.Keepable plain kept)
    (hctx : ∀ quantity, task.quantity? = some quantity → Coherent V quantity ctx) :
    Agree (S := Bench σ α) (SameReport (BothTrusted V refused)) (task.run ctx) (task.run ctx) := by
  rintro b b' ⟨⟨hb, hb'⟩, hreport⟩
  -- Both runs are compared with the one that computes everything again.
  obtain ⟨houtcome, ⟨htrusted, -⟩, hafter⟩ :=
    Task.agree_run hkeep hctx b b' ⟨⟨hb, hb'.usable⟩, hreport⟩
  obtain ⟨houtcome', ⟨htrusted', -⟩, hafter'⟩ :=
    Task.agree_run hkeep hctx b' b' ⟨⟨hb', hb'.usable⟩, rfl⟩
  exact ⟨houtcome.trans houtcome'.symm, ⟨htrusted, htrusted'⟩, hafter.trans hafter'.symm⟩

end

variable [ResultCache σ Float] {kept : StoredArray Float → Prop} [LawfulCache σ plain kept]

namespace Program

variable {V : Quantity → TaskContext Float → Prop} {ctx : TaskContext Float} {tasks : List Task}

/-- What tasks one after the other report does not depend on which trusted store they find. -/
theorem agree_runAll (hkeep : ctx.Keepable plain kept)
    (hctx : ∀ task ∈ tasks, ∀ quantity, task.quantity? = some quantity → Coherent V quantity ctx)
    {b b' : Bench σ Float} (h : SameReport (BothTrusted V refused) b b') :
    (runAll ctx tasks b).1 = (runAll ctx tasks b').1 ∧
      SameReport (BothTrusted V refused) (runAll ctx tasks b).2 (runAll ctx tasks b').2 := by
  induction tasks generalizing b b' with
  | nil => exact ⟨rfl, h⟩
  | cons task tasks ih =>
      rw [List.forall_mem_cons] at hctx
      obtain ⟨houtcome, hafter⟩ := Task.agree_trusted hkeep hctx.1 b b' h
      unfold runAll
      rcases hrun : task.run ctx b with ⟨outcome, after⟩
      rcases hrun' : task.run ctx b' with ⟨outcome', after'⟩
      rw [hrun, hrun'] at houtcome hafter
      obtain rfl : outcome = outcome' := houtcome
      cases outcome with
      | ok => exact ih hctx.2 hafter
      | error cause => exact ⟨rfl, hafter⟩

/-- A store stays trusted while tasks are run one after the other. -/
theorem trusted_runAll (hkeep : ctx.Keepable plain kept)
    (hctx : ∀ task ∈ tasks, ∀ quantity, task.quantity? = some quantity → V quantity ctx)
    {bench : Bench σ Float} (h : Trusted V refused bench.session.cache) :
    Trusted V refused (runAll ctx tasks bench).2.session.cache := by
  induction tasks generalizing bench with
  | nil => exact h
  | cons task tasks ih =>
      rw [List.forall_mem_cons] at hctx
      have hafter := Task.trusted_run hkeep hctx.1 h
      unfold runAll
      rcases hrun : task.run ctx bench with ⟨outcome, after⟩
      rw [hrun] at hafter
      cases outcome with
      | ok => exact ih hctx.2 hafter
      | error cause => exact hafter

end Program

namespace Launch

/-- The run, with a new report, on a store that may hold the results of other runs. -/
def run (launch : Launch Float) (solve : Solver Float) (sort : Sorter Float) (session : Session σ) :
    Except Stop Unit × Bench σ Float :=
  Program.runAll (launch.context solve sort) launch.tasks
    ⟨session, .create launch.model.toBandModel⟩

/-- The store and the log after runs one after the other. -/
def sessionAfter (solve : Solver Float) (sort : Sorter Float) (launches : List (Launch Float))
    (session : Session σ) : Session σ :=
  launches.foldl (fun session launch ↦ (launch.run solve sort session).2.session) session

variable {launches : List (Launch Float)} {solve : Solver Float} {sort : Sorter Float}

/-- A store stays trusted while runs follow each other. -/
theorem trusted_sessionAfter {earlier : List (Launch Float)}
    (hearlier : ∀ launch ∈ earlier, launch ∈ launches)
    (hkeep : ∀ launch ∈ earlier, (launch.context solve sort).Keepable plain kept)
    {session : Session σ} (h : Trusted (KeptBy launches solve sort) refused session.cache) :
    Trusted (KeptBy launches solve sort) refused
      (sessionAfter solve sort earlier session).cache := by
  induction earlier generalizing session with
  | nil => exact h
  | cons launch earlier ih =>
      rw [List.forall_mem_cons] at hearlier hkeep
      refine ih hearlier.2 hkeep.2
        (Program.trusted_runAll hkeep.1 (fun task htask quantity hquantity ↦ ?_) h)
      exact ⟨launch, hearlier.1, ⟨task, htask, hquantity⟩, rfl⟩

/-- A run on a store that other runs have filled. If it is compatible with another run, what both
store under one key for the same request is the same. If it is compatible with all of them, it
reports what it reports on an empty store in the same place, in memory or in a folder, whether it
refreshes the store or not; only a Raman sum without bands must not come with a number of inner
bands. -/
theorem shared_store (solve : Solver Float) (sort : Sorter Float) (earlier : List (Launch Float))
    (launch : Launch Float) :
    (∀ other : Launch Float, other.Compatible launch → other.params = launch.params →
      ∀ quantity quantity' density density' compute compute', other.Keeps quantity →
        launch.Keeps quantity' → (other.context solve sort).Stores quantity density compute →
        (launch.context solve sort).Stores quantity' density' compute' →
        (other.context solve sort).key quantity density =
          (launch.context solve sort).key quantity' density' →
        ∀ rows, compute.result = .ok rows ↔ compute'.result = .ok rows) ∧
    ((∀ other ∈ earlier, other.Compatible launch) →
      (launch.Keeps .raman → launch.params.Unambiguous) →
      ∀ (place : Option String) (blank blank' : Session ResultStore),
        blank.cache.IsBlank place → blank'.cache.IsBlank place →
        let shared := launch.run solve sort (sessionAfter solve sort earlier blank)
        let alone := launch.run solve sort blank'
        shared.1 = alone.1 ∧ shared.2.report = alone.2.report) := by
  constructor
  · intro other hcompatible hparams quantity quantity' density density' compute compute' hkeeps
      hkeeps' hstores hstores' hkey rows
    exact ⟨hcompatible.rows_eq hparams hkeeps hkeeps' hstores hstores' hkey,
      hcompatible.symm.rows_eq hparams.symm hkeeps' hkeeps hstores' hstores hkey.symm⟩
  · intro hcompatible hparams place blank blank' hblank hblank' shared alone
    have hmem : launch ∈ launch :: earlier := List.mem_cons_self
    -- The runs before need not be compatible with each other: each of them keeps the store faithful
    -- for what it has stored itself.
    have hshared : Trusted (KeptBy (launch :: earlier) solve sort) (ResultStore.refusedAt place)
        (sessionAfter solve sort earlier blank).cache :=
      trusted_sessionAfter (fun _ ↦ List.mem_cons_of_mem launch)
        (fun _ _ ↦ TaskContext.keepable_file _) (hblank.trusted _)
    have hall : ∀ other ∈ launch :: earlier, other.Compatible launch :=
      List.forall_mem_cons.mpr ⟨.refl launch, hcompatible⟩
    have hctx : ∀ task ∈ launch.tasks, ∀ quantity, task.quantity? = some quantity →
        Coherent (KeptBy (launch :: earlier) solve sort) quantity (launch.context solve sort) := by
      intro task htask quantity hquantity
      refine coherent_keptBy hmem hall ⟨task, htask, hquantity⟩ (fun hraman ↦ ?_) solve sort
      exact hparams ⟨task, htask, hraman ▸ hquantity⟩
    have hbench : SameReport (BothTrusted (KeptBy (launch :: earlier) solve sort)
          (ResultStore.refusedAt place))
        ⟨sessionAfter solve sort earlier blank, .create launch.model.toBandModel⟩
        ⟨blank', .create launch.model.toBandModel⟩ := ⟨⟨hshared, hblank'.trusted _⟩, rfl⟩
    obtain ⟨houtcome, -, hreport⟩ :=
      Program.agree_runAll (TaskContext.keepable_file _) hctx hbench
    exact ⟨houtcome, hreport⟩

/-- The default model, with energies and bands stored. -/
def densities : Launch Float where
  config := .continuum .default
  model := .continuum (.ofParams .default)
  built := bind_eq_ok.mpr ⟨_, Continuum.Model.create_eq_ok.mpr ⟨by decide +kernel, rfl⟩, rfl⟩
  evaluator := ⟨1⟩
  params := .empty
  refresh := false
  tasks := [.dos, .bands]

/-- The default model with another step of finite differences. -/
def differences : Launch Float where
  config := .continuum { Continuum.Params.default with intervalK := 0.01 }
  model := .continuum (.ofParams { Continuum.Params.default with intervalK := 0.01 })
  built := bind_eq_ok.mpr ⟨_, Continuum.Model.create_eq_ok.mpr ⟨by decide +kernel, rfl⟩, rfl⟩
  evaluator := ⟨2⟩
  params := .empty
  refresh := false
  tasks := [.energyDifference, .bands]

/-- For energies the two launches agree: only the step of finite differences is another. -/
theorem agreeFor_differences {quantity : Quantity} (hquantity : ¬ quantity.IsOptical) :
    densities.config.AgreeFor quantity differences.config :=
  ⟨rfl, fun hoptical ↦ absurd hoptical hquantity⟩

/-- The two launches keep energies only, so they may share a store. -/
theorem compatible_differences : densities.Compatible differences := by
  rintro quantity ⟨task, htask, hquantity⟩ - - -
  have htasks : task = .dos ∨ task = .bands := by simpa [densities] using htask
  rcases htasks with rfl | rfl <;> cases hquantity <;> exact agreeFor_differences (by decide)

/-- Energies and bands that are stored in a folder for one step of finite differences serve for
another. -/
theorem shared_store_steps :
    (∀ rows, (densities.context hermitianSolver .insertion).energiesOverGrid.result = .ok rows ↔
      (differences.context hermitianSolver .insertion).energiesOverGrid.result = .ok rows) ∧
    let blank : Session ResultStore := ⟨.folder ⟨"cache", .folder [("cache", .empty)]⟩, #[]⟩
    let shared := differences.run hermitianSolver .insertion
      (sessionAfter hermitianSolver .insertion [densities] blank)
    let alone := differences.run hermitianSolver .insertion blank
    shared.1 = alone.1 ∧ shared.2.report = alone.2.report := by
  have hcreate : PickleFolder.create .empty "cache" =
      .ok ⟨"cache", .folder [("cache", .empty)]⟩ := by rfl
  have hblank :
      (ResultStore.folder ⟨"cache", .folder [("cache", .empty)]⟩).IsBlank (some "cache") :=
    .folder hcreate fun key hkey ↦ PickleFolder.Opens.load_of_empty ⟨rfl, rfl⟩ hkey
  obtain ⟨hrows, hreport⟩ := shared_store hermitianSolver .insertion [densities] differences
  have hparams : densities.params = differences.params :=
    (show densities.params = .empty from rfl).trans (show .empty = differences.params from rfl)
  have hkey : (densities.context hermitianSolver .insertion).key .energies 70 =
      (differences.context hermitianSolver .insertion).key .energies 70 :=
    key_eq_of_agreeFor (agreeFor_differences (by decide)) hparams hermitianSolver .insertion 70
  constructor
  · exact hrows densities compatible_differences hparams .energies .energies 70 70 _ _
      ⟨.dos, by simp [densities], rfl⟩ ⟨.energyDifference, by simp [differences], rfl⟩
      (.energies rfl) (.energies rfl) hkey
  · exact hreport (by simpa using compatible_differences) (fun _ h ↦ nomatch h.2) _ _ _ hblank
      hblank

end Launch

/-! ## What a task takes from the store and leaves in it -/

section

variable {σ α : Type} [Scalar α] [ResultCache σ α] {ctx : TaskContext α}

namespace Task

/-- The step leaves the store as it is. -/
def KeepsStore {β : Type} (work : Run σ α β) : Prop :=
  ∀ bench, (work bench).2.session.cache = bench.session.cache

omit [Scalar α] [ResultCache σ α] in
/-- The last step that touches the store decides what is in it. -/
theorem cache_bind {β γ : Type} (first : Run σ α β) {next : β → Run σ α γ}
    (hnext : ∀ value, KeepsStore (next value)) (bench : Bench σ α) :
    ((first >>= next) bench).2.session.cache = (first bench).2.session.cache := by
  rw [run_bind]
  rcases first bench with ⟨result, after⟩
  cases result with
  | ok value => exact hnext value after
  | error cause => rfl

omit [Scalar α] [ResultCache σ α] in
/-- Amending the report leaves the store alone. -/
theorem keepsStore_amend {β : Type} (outcome : Outcome β) (change : β → Report α → Report α) :
    KeepsStore (liftM outcome >>= fun value ↦ Run.amend (change value) : Run σ α Unit) :=
  fun bench ↦ cache_bind (liftM outcome) (fun _ _ ↦ rfl) bench

/-- The store after the differences is the store after the rows over the grid. -/
theorem cache_energyDifference (ctx : TaskContext α) (bench : Bench σ α) :
    ∃ log, (energyDifference.run ctx bench).2.session.cache =
      (gridEnergies ctx ⟨bench.session.cache, log⟩).2.cache := by
  obtain ⟨log, hrun⟩ := energyDifference.run_eq ctx bench
  refine ⟨log, (congrArg (·.2.session.cache) hrun).trans ?_⟩
  exact cache_bind (Run.ofJob (gridEnergies ctx)) (fun _ ↦ keepsStore_amend _ _) _

/-- Where nothing is stored, a Raman spectrum is returned only for an unambiguous request. -/
theorem unambiguous_of_raman {bench : Bench σ α}
    (hblank : ∀ key, ResultCache.load bench.session.cache key = .ok none)
    (hok : (raman.run ctx bench).1 = .ok ()) : ctx.params.Unambiguous := by
  obtain ⟨log, hrun⟩ := raman.run_eq ctx bench
  rw [hrun] at hok
  obtain ⟨path, -, hok⟩ := exists_of_bind_ok hok
  obtain ⟨rows, hrows, -⟩ := exists_of_bind_ok hok
  have hmiss := cachedRows_miss (hblank (ctx.ramanKey path.length)) ctx.refresh
    (ctx.ramanRows path.points) log
  have hcompute : (computeRows (ctx.ramanKey path.length) (ctx.ramanRows path.points)
      ⟨bench.session.cache, log⟩).1 = .ok rows := hmiss ▸ hrows
  obtain ⟨_, hcompute, -⟩ := exists_of_bind_ok hcompute
  exact ctx.unambiguous_of_ramanRows path.points log _ hcompute

section

variable {path : KPath α} (hpath : ctx.model.ramanPath.sample ctx.density false = .ok path)

include hpath

/-- The store after a Raman spectrum is the store after its amplitudes. -/
theorem cache_raman (bench : Bench σ α) : ∃ log,
    (raman.run ctx bench).2.session.cache = (cachedRows (ctx.ramanKey path.length) ctx.refresh
      (ctx.ramanRows path.points) ⟨bench.session.cache, log⟩).2.cache := by
  obtain ⟨log, hrun⟩ := raman.run_eq ctx bench
  refine ⟨log, (congrArg (·.2.session.cache) (hrun.trans (run_bind_ok hpath _))).trans ?_⟩
  refine cache_bind (Run.ofJob (cachedRows (ctx.ramanKey path.length) ctx.refresh
    (ctx.ramanRows path.points))) (fun _ bench ↦ ?_) _
  exact cache_bind _ (fun _ ↦ keepsStore_amend _ _) bench

/-- A Raman spectrum is returned if its amplitudes are there, stored or computed. -/
theorem raman_eq_ok {bench : Bench σ α} {rows : List (List α)} {terms : List (List (Cplx α))}
    {spectrum : RamanSpectrum α}
    (hrows : ∀ log, (cachedRows (ctx.ramanKey path.length) ctx.refresh (ctx.ramanRows path.points)
      ⟨bench.session.cache, log⟩).1 = .ok rows)
    (hterms : rows.mapM (ramanRow (ctx.ramanKey path.length)) = .ok terms)
    (hspectrum : Raman.ofTerms terms ctx.bands.unitCellArea = .ok spectrum) :
    (raman.run ctx bench).1 = .ok () := by
  obtain ⟨log, hrun⟩ := raman.run_eq ctx bench
  refine (congrArg Prod.fst (hrun.trans (run_bind_ok hpath _))).trans ?_
  have hjob : ((Run.ofJob (cachedRows (ctx.ramanKey path.length) ctx.refresh
      (ctx.ramanRows path.points)) : Run σ α _) ⟨⟨bench.session.cache, log⟩, bench.report⟩).1 =
      .ok rows := hrows log
  refine returns_bind hjob fun _ ↦ ?_
  refine returns_bind (show _ = Except.ok terms from hterms) fun _ ↦ ?_
  exact returns_bind hspectrum fun _ ↦ rfl

end

end Task

/-- A sum over no bands has no terms. -/
theorem Raman.terms_of_half_eq_zero {model : BandModel α} {solve : Solver α}
    {params : RamanParams α} {k : KPoint α} {spectrum : Spectrum α}
    (hspectrum : model.spectrum solve k = .ok spectrum) (hsize : spectrum.size < countLimit)
    (hhalf : params.half = 0) : terms model solve params k = .ok [] := by
  have hmid : spectrum.mid ≤ spectrum.size := Nat.div_le_self spectrum.size 2
  have hvalence : spectrum.valence 0 = .ok [] := rfl
  have hconduction : spectrum.conduction 0 = .ok [] := by
    unfold Spectrum.conduction addCount
    rw [if_pos (by omega)]
    exact if_neg (by omega)
  have htransitions : transitions model solve params.half k = .ok [] := by
    rw [hhalf]
    exact bind_eq_ok.mpr ⟨spectrum, hspectrum, bind_eq_ok.mpr ⟨_, hvalence,
      bind_eq_ok.mpr ⟨_, hconduction, rfl⟩⟩⟩
  exact bind_eq_ok.mpr ⟨_, htransitions, rfl⟩

end

/-! ## Keys that do not tell models apart -/

namespace Continuum

open RealScalar

/-- The context of tasks for the model of one wave. -/
noncomputable def oneWaveContext (velocity : ℝ) (params : ObservableParams ℝ) : TaskContext ℝ :=
  ⟨.continuum (.ofParams (oneWave velocity)), ⟨1⟩, chiralSolver, .insertion, params, false⟩

/-- A session with an empty store. -/
def newSession : Session (MemoryStore ℝ) := ⟨.empty, #[]⟩

/-! ### Energies of two models -/

/-- A request for the two energies at the centre of the zone. -/
noncomputable def centreRequest : ObservableParams ℝ :=
  { ObservableParams.empty with kpNum := some 1, bandWindow := some ⟨-1, 1⟩ }

/-- The energies of one wave at the centre are a pair around zero. -/
theorem energiesOverGrid_oneWave (velocity : ℝ) :
    (oneWaveContext velocity centreRequest).energiesOverGrid.result =
      .ok [[-|(oneWave velocity).epsilon|, |(oneWave velocity).epsilon|]] := by
  have hgrid : (oneWaveContext velocity centreRequest).grid = .ok [gamma] := by
    have hpoint : (bPlus : KPoint ℝ) * (Number.ofNat 0 / Number.ofNat 1 : ℝ) +
        (bMinus : KPoint ℝ) * (Number.ofNat 0 / Number.ofNat 1 : ℝ) = gamma := by
      ext <;> simp [gamma]
    rw [← hpoint]
    rfl
  have hwindow := windowAt_oneWave (show (oneWave velocity).loopTimes = 0 from rfl) gamma
  rw [norm_gamma_sub_kBottom, mul_one] at hwindow
  refine returns_bind (show _ = Except.ok [gamma] from hgrid) fun _ ↦ ?_
  refine returns_bind rfl fun _ ↦ ?_
  exact Evaluator.evaluate_eq_ok _ (congrArg (fun row ↦ [row]) hwindow.symm)

/-- The velocity does not stand in the key. -/
theorem windowKey_centre (velocity other : ℝ) (kind : String) (density : ℕ) :
    (oneWaveContext velocity centreRequest).windowKey kind density =
      (oneWaveContext other centreRequest).windowKey kind density := by
  -- Reduction of both sides at once would compare the two models, so each field is reduced alone.
  have hname : ∀ v, (oneWaveContext v centreRequest).bands.name = "continuum" := fun _ ↦ rfl
  have hangle : ∀ v, (oneWaveContext v centreRequest).bands.twistAngle = 60 := fun _ ↦ rfl
  have hwindow : ∀ v, (oneWaveContext v centreRequest).window = ⟨-1, 1⟩ := fun _ ↦ rfl
  unfold TaskContext.windowKey resultKey
  rw [hname, hname, hangle, hangle, hwindow, hwindow]

/-- On an empty store the energies of the model at hand are returned and stored. -/
theorem gridEnergies_oneWave (velocity : ℝ) (log : Log) :
    let scale := |(oneWave velocity).epsilon|
    let after := Task.gridEnergies (oneWaveContext velocity centreRequest)
      (⟨.empty, log⟩ : Session (MemoryStore ℝ))
    after.1 = .ok [[-scale, scale]] ∧ ResultCache.load after.2.cache
      ((oneWaveContext velocity centreRequest).windowKey "energies" 1) =
        .ok (some ⟨[1, 2], [-scale, scale]⟩) := by
  intro scale after
  have hmiss : after = _ := cachedRows_miss (MemoryStore.load_empty _) _ _ log
  rw [hmiss]
  exact computeRows_eq_ok (TaskContext.steady_energiesOverGrid _)
    (energiesOverGrid_oneWave velocity) rfl _ _

/-- The one difference of a pair around zero is the distance of its energies. -/
theorem energyDifferences_pair (x : ℝ) :
    energyDifferences [[-x, x]] ⟨-1, 1⟩ 1 1 = .ok [x - -x] := rfl

/-- On an empty store the differences are those of the model at hand. -/
theorem report_oneWave (velocity : ℝ) (report : Report ℝ) :
    (Task.energyDifference.run (oneWaveContext velocity centreRequest)
        ⟨newSession, report⟩).2.report.energyDifference =
      some [|(oneWave velocity).epsilon| - -|(oneWave velocity).epsilon|] :=
  congrArg Report.energyDifference (Task.run_energyDifference
    (fun log ↦ (gridEnergies_oneWave velocity log).1) rfl (energyDifferences_pair _)).2

/-- On the store of another model the differences are those of that model. -/
theorem report_stored (velocity other : ℝ) (report report' : Report ℝ) :
    (Task.energyDifference.run (oneWaveContext other centreRequest)
        ⟨(Task.energyDifference.run (oneWaveContext velocity centreRequest)
          ⟨newSession, report⟩).2.session, report'⟩).2.report.energyDifference =
      some [|(oneWave velocity).epsilon| - -|(oneWave velocity).epsilon|] := by
  refine congrArg Report.energyDifference
    (Task.run_energyDifference (fun log ↦ ?_) rfl (energyDifferences_pair _)).2
  obtain ⟨_, hcache⟩ := Task.cache_energyDifference (oneWaveContext velocity centreRequest)
    (⟨newSession, report⟩ : Bench (MemoryStore ℝ) ℝ)
  have hrows : (⟨[1, 2], [-|(oneWave velocity).epsilon|, |(oneWave velocity).epsilon|]⟩ :
      StoredArray ℝ).toRows =
      .ok [[-|(oneWave velocity).epsilon|, |(oneWave velocity).epsilon|]] := by
    simp [StoredArray.toRows, chunksOf]
    rfl
  have hload : ResultCache.load (Task.energyDifference.run (oneWaveContext velocity centreRequest)
      ⟨newSession, report⟩).2.session.cache
      ((oneWaveContext other centreRequest).windowKey "energies" 1) =
      .ok (some ⟨[1, 2], [-|(oneWave velocity).epsilon|, |(oneWave velocity).epsilon|]⟩) := by
    rw [hcache, windowKey_centre other velocity]
    exact (gridEnergies_oneWave velocity _).2
  exact cachedRows_hit hload hrows _ log

/-! ### A Raman sum without bands -/

/-- A request for Raman amplitudes of no bands along a path of one point. -/
noncomputable def bandlessRequest (inner : Option ℕ) : ObservableParams ℝ :=
  { ObservableParams.empty with
    pathDensity := some 1
    numHalf := some 0
    ramanInnerTransitions := inner }

/-- The density of the request is one. -/
theorem density_bandless (inner : Option ℕ) :
    (oneWaveContext 1 (bandlessRequest inner)).density = 1 := by
  simp [TaskContext.density, oneWaveContext, bandlessRequest, TaskContext.bands,
    TwistedModel.toBandModel, Model.toBandModel]

/-- With density one a side has as many points as whole units fit on it. -/
theorem sideCount_one {p q : KPoint ℝ} {n : ℕ} (hn : n < 2) (hlow : (n : ℝ) ≤ (q - p).norm)
    (hhigh : (q - p).norm < n + 1) : sideCount 1 p q = n := by
  have hfloor : ⌊(q - p).norm * 1⌋₊ = n := by
    rw [mul_one]
    exact (Nat.floor_eq_iff (n.cast_nonneg.trans hlow)).mpr ⟨hlow, hhigh⟩
  show min ⌊(q - p).norm * 1⌋₊ largestCount = n
  rw [hfloor]
  exact Nat.min_eq_left (by unfold largestCount countLimit; omega)

/-- At one point for each momentum unit only the first side of the path has a point. -/
theorem exists_ramanPath : ∃ path,
    (ramanPath : HighSymmetryPath ℝ).sample 1 false = .ok path ∧ path.points.length = 1 := by
  have hsqrt : √3 * √3 = (3 : ℝ) := Real.mul_self_sqrt (by norm_num)
  have hfirst : sideCount 1 kBottom (gamma : KPoint ℝ) = 1 :=
    sideCount_one (by norm_num) (by rw [norm_gamma_sub_kBottom, Nat.cast_one])
      (by rw [norm_gamma_sub_kBottom]; norm_num)
  have hnone : ∀ p q : KPoint ℝ, (q - p).normSq < 1 → sideCount 1 p q = 0 := by
    intro p q hlt
    refine sideCount_one two_pos (by simp [Vec2.norm]) ?_
    rw [Vec2.norm, sqrt_eq, Nat.cast_zero, zero_add, Real.sqrt_lt' one_pos, one_pow]
    exact hlt
  have hsecond : sideCount 1 gamma (mPoint : KPoint ℝ) = 0 := by
    apply hnone
    simp only [mPoint_eq, gamma_eq, Vec2.normSq, Vec2.sub_x, Vec2.sub_y]
    linarith
  have hthird : sideCount 1 mPoint (kTop : KPoint ℝ) = 0 := by
    apply hnone
    simp only [mPoint_eq, kTop_eq, Vec2.normSq, Vec2.sub_x, Vec2.sub_y]
    linarith
  have hdensity : Number.nonnegative (1 : ℝ) = 1 := by simp [Number.nonnegative]
  obtain ⟨start, hsides⟩ : ∃ start : KPoint ℝ,
      sides 1 [kBottom, gamma, mPoint, kTop] = .ok [[start], [], []] := by
    simp only [sides, hfirst, hsecond, hthird, segment]
    exact ⟨_, rfl⟩
  have hsegments : sides (Number.nonnegative 1) (ramanPath : HighSymmetryPath ℝ).vertices =
      .ok [[start], [], []] := by
    rw [hdensity]
    exact hsides
  exact ⟨_, bind_eq_ok.mpr ⟨_, bind_eq_ok.mpr ⟨_, hsegments, rfl⟩, rfl⟩, rfl⟩

/-- Without bands the Raman row of the only point is empty. -/
theorem ramanRows_bandless {points : List (KPoint ℝ)} (hpoints : points.length = 1) :
    ((oneWaveContext 1 (bandlessRequest none)).ramanRows points).result = .ok [[]] := by
  obtain ⟨k, rfl⟩ := List.length_eq_one_iff.mp hpoints
  have hterms : Raman.terms (oneWaveContext 1 (bandlessRequest none)).bands chiralSolver
      (oneWaveContext 1 (bandlessRequest none)).raman k = .ok [] :=
    Raman.terms_of_half_eq_zero (spectrum_oneWave rfl k) (show 2 < countLimit by decide) rfl
  have hrows : Raman.termRows (oneWaveContext 1 (bandlessRequest none)).bands chiralSolver ⟨1⟩ [k]
      (oneWaveContext 1 (bandlessRequest none)).raman = .ok [[]] :=
    bind_eq_ok.mpr ⟨(), rfl, Evaluator.evaluate_eq_ok _
      (congrArg (fun row ↦ [row]) hterms.symm)⟩
  refine returns_bind (show _ = Except.ok () from rfl) fun _ ↦ returns_bind rfl fun _ ↦
    returns_bind rfl fun _ ↦ returns_bind hrows fun _ ↦ ?_
  exact returns_bind (show _ = Except.ok () from rfl) fun _ ↦ rfl

/-- A Raman sum without bands is stored for all inner bands, and is then found for none. -/
theorem raman_bandless (report : Report ℝ) :
    let stored := (Task.raman.run (oneWaveContext 1 (bandlessRequest none))
      ⟨newSession, report⟩).2.session
    (Task.raman.run (oneWaveContext 1 (bandlessRequest (some 0))) ⟨stored, report⟩).1 = .ok () ∧
      (Task.raman.run (oneWaveContext 1 (bandlessRequest (some 0))) ⟨newSession, report⟩).1 ≠
        .ok () := by
  intro stored
  obtain ⟨path, hsample, hlength⟩ := exists_ramanPath
  have hpath : ∀ inner, (oneWaveContext 1 (bandlessRequest inner)).model.ramanPath.sample
      (oneWaveContext 1 (bandlessRequest inner)).density false = .ok path := by
    intro inner
    rw [density_bandless]
    exact hsample
  constructor
  · have hload : ResultCache.load stored.cache
        ((oneWaveContext 1 (bandlessRequest (some 0))).ramanKey path.length) =
        .ok (some ⟨[1, 0], []⟩) := by
      obtain ⟨log, hcache⟩ := Task.cache_raman (hpath none) (⟨newSession, report⟩ : Bench _ ℝ)
      rw [hcache]
      dsimp only [newSession]
      rw [cachedRows_miss (MemoryStore.load_empty _)]
      exact (computeRows_eq_ok (TaskContext.steady_ramanRows _ _) (ramanRows_bandless hlength) rfl
        _ _).2
    have hrows : (⟨[1, 0], []⟩ : StoredArray ℝ).toRows = .ok [[]] := rfl
    have hterms : [([] : List ℝ)].mapM (ramanRow
        ((oneWaveContext 1 (bandlessRequest (some 0))).ramanKey path.length)) = .ok [[]] := rfl
    exact Task.raman_eq_ok (hpath (some 0)) (fun log ↦ cachedRows_hit hload hrows _ log) hterms rfl
  · intro hok
    exact Task.unambiguous_of_raman MemoryStore.load_empty hok ⟨rfl, rfl⟩

/-- Models of one wave with different velocities share their keys, so that rows of one model are
reported for the other. A Raman sum without bands that is refused on an empty store is found in the
store of the model itself. -/
theorem keys_collide :
    let slow := oneWaveContext 1 centreRequest
    let fast := oneWaveContext 2 centreRequest
    let stored :=
      (Task.energyDifference.run slow ⟨newSession, Report.create slow.bands⟩).2.session
    let all := oneWaveContext 1 (bandlessRequest none)
    let none := oneWaveContext 1 (bandlessRequest (some 0))
    let storedAll := (Task.raman.run all ⟨newSession, Report.create all.bands⟩).2.session
    (TwistedModel.create (.continuum (oneWave 1)) = .ok slow.model ∧
      TwistedModel.create (.continuum (oneWave 2)) = .ok fast.model) ∧
    (∀ k, chiralSolver.FindsEnergies (slow.bands.hamiltonian k) ∧
      chiralSolver.FindsEnergies (fast.bands.hamiltonian k)) ∧
    slow.key .energies 1 = fast.key .energies 1 ∧
    (∃ rows rows', slow.energiesOverGrid.result = .ok rows ∧
      fast.energiesOverGrid.result = .ok rows' ∧ rows ≠ rows') ∧
    (Task.energyDifference.run fast ⟨stored, Report.create fast.bands⟩).2.report.energyDifference ≠
      (Task.energyDifference.run fast
        ⟨newSession, Report.create fast.bands⟩).2.report.energyDifference ∧
    (Task.raman.run none ⟨storedAll, Report.create none.bands⟩).1 = .ok () ∧
    (Task.raman.run none ⟨newSession, Report.create none.bands⟩).1 ≠ .ok () := by
  intro slow fast stored all none storedAll
  have hepsilon : |(oneWave 2).epsilon| = 2 * |(oneWave 1).epsilon| := by
    rw [epsilon_oneWave 2, abs_mul, abs_two]
  have hpos : 0 < |(oneWave 1).epsilon| := abs_pos.mpr epsilon_oneWave_ne_zero
  refine ⟨⟨create_oneWave one_pos, create_oneWave two_pos⟩,
    fun k ↦ ⟨findsEnergies_oneWave rfl k, findsEnergies_oneWave rfl k⟩, ?_,
    ⟨_, _, energiesOverGrid_oneWave 1, energiesOverGrid_oneWave 2, ?_⟩, ?_, raman_bandless _⟩
  · rw [← TaskContext.windowKey_energies, ← TaskContext.windowKey_energies, windowKey_centre]
  · intro hrows
    simp only [List.cons.injEq, and_true, hepsilon] at hrows
    linarith [hrows.2]
  · rw [report_stored, report_oneWave, hepsilon]
    simp only [ne_eq, Option.some.injEq, List.cons.injEq, and_true]
    intro heq
    linarith

end Continuum

end Moire
