import Mathlib
import Moire.Proofs.DecoupledLayers
import Moire.Proofs.TwoRuns

/-!
# What tasks do to the report

No step of a run looks at the report: it has a result and a change of the report that are the same
for all reports, `Run.Does`. A task that succeeds changes its own section and nothing else,
`Task.Amends`. A task that fails changes nothing, with one exception: the first of the two Chern
numbers is added before the second one is computed, and it stays if the second one fails. These are
all the cases, `Task.does_run`, for every content of the store and for stores that fail. Decoupled
layers are an example of the exception.
-/

namespace Moire

variable {σ α β γ : Type}

/-! ## Steps that do not look at the report -/

namespace Run

/-- From every session the step has one result and makes one change, whatever the report is. -/
def Does (work : Run σ α β) (P : Outcome β → (Report α → Report α) → Prop) : Prop :=
  ∀ session, ∃ result after change, P result change ∧
    ∀ report, work ⟨session, report⟩ = (result, ⟨after, change report⟩)

/-- The step leaves the report alone. -/
def Silent (work : Run σ α β) : Prop := work.Does fun _ change ↦ change = id

/-- What work does may be told less exactly. -/
theorem Does.mono {work : Run σ α β} {P Q : Outcome β → (Report α → Report α) → Prop}
    (h : work.Does P) (hPQ : ∀ result change, P result change → Q result change) : work.Does Q := by
  intro session
  obtain ⟨result, after, change, hP, hrun⟩ := h session
  exact ⟨result, after, change, hPQ result change hP, hrun⟩

/-- Work on the store has a result that some session gives. -/
theorem does_ofJob (job : Job σ β) : (ofJob job : Run σ α β).Does fun result change ↦
    (∃ session, (job session).1 = result) ∧ change = id :=
  fun session ↦ ⟨_, (job session).2, id, ⟨⟨session, rfl⟩, rfl⟩, fun _ ↦ rfl⟩

/-- A job does not touch the report. -/
theorem silent_ofJob (job : Job σ β) : (ofJob job : Run σ α β).Silent :=
  (does_ofJob job).mono fun _ _ h ↦ h.2

/-- An outcome does not touch the report. -/
theorem silent_outcome (outcome : Outcome β) : (liftM outcome : Run σ α β).Silent :=
  fun session ↦ ⟨outcome, session, id, rfl, fun _ ↦ rfl⟩

/-- Amending returns and makes its change. -/
theorem does_amend (change : Report α → Report α) : (amend change : Run σ α Unit).Does
    fun result change' ↦ result = .ok () ∧ change' = change :=
  fun session ↦ ⟨_, session, change, ⟨rfl, rfl⟩, fun _ ↦ rfl⟩

/-- Two steps one after the other make both changes, unless the first one stops. -/
theorem Does.bind {first : Run σ α β} {next : β → Run σ α γ}
    {P : Outcome β → (Report α → Report α) → Prop} {Q : Outcome γ → (Report α → Report α) → Prop}
    (h : first.Does P) (herror : ∀ cause change, P (.error cause) change → Q (.error cause) change)
    (hnext : ∀ value change, P (.ok value) change →
      (next value).Does fun result change' ↦ Q result (change' ∘ change)) :
    (first >>= next).Does Q := by
  intro session
  obtain ⟨result, after, change, hP, hfirst⟩ := h session
  cases result with
  | error cause =>
      refine ⟨.error cause, after, change, herror cause change hP, fun report ↦ ?_⟩
      rw [run_bind, hfirst]
  | ok value =>
      obtain ⟨result, last, change', hQ, hlast⟩ := hnext value change hP after
      refine ⟨result, last, change' ∘ change, hQ, fun report ↦ ?_⟩
      rw [run_bind, hfirst]
      exact hlast (change report)

/-- A step that leaves the report alone, and then another one. -/
theorem Silent.bind {first : Run σ α β} {next : β → Run σ α γ}
    {Q : Outcome γ → (Report α → Report α) → Prop} (h : first.Silent)
    (herror : ∀ cause, Q (.error cause) id) (hnext : ∀ value, (next value).Does Q) :
    (first >>= next).Does Q := by
  refine Does.bind h (fun cause change hchange ↦ ?_) fun value change hchange ↦ ?_
  · exact hchange ▸ herror cause
  · obtain rfl : change = id := hchange
    exact hnext value

end Run

/-! ## Tasks -/

section

variable [Scalar α] (ctx : TaskContext α)

namespace TaskContext

/-- The points along each vector of the zone for Chern numbers. -/
def chernKpNum : ℕ := ctx.params.chernKpNum.getD 30

/-- The band of Chern numbers. -/
def chernBand : ℤ := ctx.params.chernBand.getD 1

/-- The first Chern number of the task. -/
def kubo : Outcome (ChernResult α) :=
  Chern.kubo ctx.bands ctx.solve ctx.evaluator ctx.chernKpNum ctx.chernBand

/-- The second Chern number of the task. -/
def plaquette : Outcome (ChernResult α) :=
  Chern.plaquette ctx.bands ctx.solve ctx.evaluator ctx.chernKpNum ctx.chernBand

end TaskContext

/-- The report with further Chern numbers. -/
def Report.addChern (results : List (ChernResult α)) (report : Report α) : Report α :=
  { report with chern := report.chern ++ results }

/-- The changes that a task can make if it succeeds: it fills its own section, and Chern numbers are
added to those that are there. -/
inductive Task.Amends : Task → (Report α → Report α) → Prop
  | bands (value : BandStructure α) : Amends .bands ({ · with bands := some value })
  | dos (value : DensityOfStates α) : Amends .dos ({ · with dos := some value })
  | jdos (value : DensityOfStates α) : Amends .jdos ({ · with jdos := some value })
  | absorption (value : AbsorptionSpectrum α) :
      Amends .absorption ({ · with absorption := some value })
  | conductivity (value : ConductivitySpectrum α) :
      Amends .conductivity ({ · with conductivity := some value })
  | raman (value : RamanSpectrum α) : Amends .raman ({ · with raman := some value })
  | chern {kubo plaquette : ChernResult α} (hkubo : ctx.kubo = .ok kubo)
      (hplaquette : ctx.plaquette = .ok plaquette) :
      Amends .chern (Report.addChern [kubo, plaquette])
  | fermiVelocity (value : α) : Amends .fermiVelocity ({ · with fermiVelocity := some value })
  | patch (value : List (List α)) : Amends .patch ({ · with patch := some value })
  | energyDifference (value : List α) :
      Amends .energyDifference ({ · with energyDifference := some value })

/-- How a task can end, with its change of the report. -/
inductive Task.Ends (task : Task) : Outcome Unit → (Report α → Report α) → Prop
  | done {change : Report α → Report α} (h : task.Amends ctx change) : Ends task (.ok ()) change
  | failed {cause : Failure} (h : task = .chern → ctx.kubo = .error cause) :
      Ends task (.error cause) id
  | halfway {kubo : ChernResult α} {cause : Failure} (h : task = .chern)
      (hkubo : ctx.kubo = .ok kubo) (hplaquette : ctx.plaquette = .error cause) :
      Ends task (.error cause) (Report.addChern [kubo])

namespace Task

/-- Making a change of the task is a way for it to end well. -/
theorem does_amends {task : Task} {change : Report α → Report α} (h : task.Amends ctx change) :
    (Run.amend change : Run σ α Unit).Does (task.Ends ctx) :=
  (Run.does_amend change).mono fun _ _ ⟨hresult, hchange⟩ ↦ hresult ▸ hchange ▸ .done h

section

variable [ResultCache σ α] {task : Task} (hne : task ≠ .chern)

include hne

omit [ResultCache σ α] in
/-- A task other than that of Chern numbers goes on after a step that leaves the report alone. -/
theorem does_after {first : Run σ α β} (h : first.Silent) {next : β → Run σ α Unit}
    (hnext : ∀ value, (next value).Does (task.Ends ctx)) : (first >>= next).Does (task.Ends ctx) :=
  h.bind (fun _ ↦ .failed fun hchern ↦ absurd hchern hne) hnext

/-- A task other than that of Chern numbers changes the report in its last step, which succeeds. -/
theorem does_body_of_ne : (task.body ctx : Run σ α Unit).Does (task.Ends ctx) := by
  cases task with
  | bands =>
      refine does_after ctx hne (Run.silent_outcome _) fun _ ↦ ?_
      refine does_after ctx hne (Run.silent_ofJob _) fun _ ↦ ?_
      exact does_after ctx hne (Run.silent_outcome _) fun _ ↦ does_amends ctx (.bands _)
  | dos =>
      refine does_after ctx hne (Run.silent_ofJob _) fun _ ↦ ?_
      exact does_after ctx hne (Run.silent_outcome _) fun _ ↦ does_amends ctx (.dos _)
  | jdos =>
      refine does_after ctx hne (Run.silent_ofJob _) fun _ ↦ ?_
      exact does_after ctx hne (Run.silent_outcome _) fun _ ↦ does_amends ctx (.jdos _)
  | absorption =>
      refine does_after ctx hne (Run.silent_ofJob _) fun _ ↦ ?_
      refine does_after ctx hne (Run.silent_outcome _) fun _ ↦ ?_
      exact does_after ctx hne (Run.silent_outcome _) fun _ ↦ does_amends ctx (.absorption _)
  | conductivity =>
      refine does_after ctx hne (Run.silent_ofJob _) fun _ ↦ ?_
      refine does_after ctx hne (Run.silent_outcome _) fun _ ↦ ?_
      exact does_after ctx hne (Run.silent_outcome _) fun _ ↦ does_amends ctx (.conductivity _)
  | raman =>
      refine does_after ctx hne (Run.silent_outcome _) fun _ ↦ ?_
      refine does_after ctx hne (Run.silent_ofJob _) fun _ ↦ ?_
      refine does_after ctx hne (Run.silent_outcome _) fun _ ↦ ?_
      exact does_after ctx hne (Run.silent_outcome _) fun _ ↦ does_amends ctx (.raman _)
  | chern => exact absurd rfl hne
  | fermiVelocity =>
      exact does_after ctx hne (Run.silent_outcome _) fun _ ↦ does_amends ctx (.fermiVelocity _)
  | patch =>
      refine does_after ctx hne (Run.silent_outcome _) fun _ ↦ ?_
      exact does_after ctx hne (Run.silent_ofJob _) fun _ ↦ does_amends ctx (.patch _)
  | energyDifference =>
      refine does_after ctx hne (Run.silent_ofJob _) fun _ ↦ ?_
      exact does_after ctx hne (Run.silent_outcome _) fun _ ↦ does_amends ctx (.energyDifference _)

end

/-- A Chern number, with what is told before it is computed. -/
def estimate (method : String) (outcome : Outcome (ChernResult α)) : Logged (ChernResult α) := do
  let points ← Chern.grid ctx.bands ctx.chernKpNum
  say (Chern.announcement method ctx.chernKpNum ctx.chernBand)
  say (ctx.evaluator.announcement points.length)
  outcome

/-- The task computes one Chern number after the other and reports each of them at once. -/
theorem runChern_eq : (runChern ctx : Run σ α Unit) = (do
    let kubo ← Run.ofJob (Job.ofLogged (estimate ctx "Kubo" ctx.kubo))
    Run.amend fun report ↦ { report with chern := report.chern ++ [kubo] }
    let plaquette ← Run.ofJob (Job.ofLogged (estimate ctx "plaquette" ctx.plaquette))
    Run.amend fun report ↦ { report with chern := report.chern ++ [plaquette] }) :=
  rfl

/-- An estimate fails if the grid does, and so does the Chern number itself. -/
theorem does_estimate (method : String) {outcome : Outcome (ChernResult α)}
    (hgrid : ∀ cause, Chern.grid ctx.bands ctx.chernKpNum = .error cause →
      outcome = .error cause) :
    (Run.ofJob (Job.ofLogged (estimate ctx method outcome)) : Run σ α _).Does
      fun result change ↦ result = outcome ∧ change = id := by
  refine (Run.does_ofJob _).mono fun result change ⟨⟨session, hresult⟩, hchange⟩ ↦ ⟨?_, hchange⟩
  rw [← hresult]
  show (estimate ctx method outcome session.log).1 = outcome
  have hlift : (liftM (Chern.grid ctx.bands ctx.chernKpNum) : Logged _) session.log =
      (Chern.grid ctx.bands ctx.chernKpNum, session.log) := rfl
  rw [estimate, run_bind, hlift]
  cases hpoints : Chern.grid ctx.bands ctx.chernKpNum with
  | error cause => exact (hgrid cause hpoints).symm
  | ok points => rfl

/-- The two Chern numbers: if the second one fails, the first one has been reported. -/
theorem does_runChern : (runChern ctx : Run σ α Unit).Does (chern.Ends ctx) := by
  have hkubo : ∀ cause, Chern.grid ctx.bands ctx.chernKpNum = .error cause →
      ctx.kubo = .error cause := by
    intro cause hgrid
    rw [TaskContext.kubo, Chern.kubo, hgrid]
    rfl
  have hplaquette : ∀ cause, Chern.grid ctx.bands ctx.chernKpNum = .error cause →
      ctx.plaquette = .error cause := by
    intro cause hgrid
    rw [TaskContext.plaquette, Chern.plaquette, hgrid]
    rfl
  rw [runChern_eq]
  refine (does_estimate ctx "Kubo" hkubo).bind (fun cause change h ↦ ?_) fun kubo change h ↦ ?_
  · obtain ⟨hresult, rfl⟩ := h
    exact .failed fun _ ↦ hresult.symm
  obtain ⟨hresult, rfl⟩ := h
  refine (Run.does_amend _).bind (fun cause change h ↦ ?_) fun _ change h ↦ ?_
  · cases h.1
  obtain ⟨-, rfl⟩ := h
  refine (does_estimate ctx "plaquette" hplaquette).bind (fun cause change h ↦ ?_)
    fun plaquette change h ↦ ?_
  · obtain ⟨hresult', rfl⟩ := h
    exact .halfway rfl hresult.symm hresult'.symm
  obtain ⟨hresult', rfl⟩ := h
  refine (Run.does_amend _).mono fun result change h ↦ ?_
  obtain ⟨rfl, rfl⟩ := h
  have hboth : (fun report : Report α ↦ { report with chern := report.chern ++ [plaquette] }) ∘
      (fun report : Report α ↦ { report with chern := report.chern ++ [kubo] }) =
        Report.addChern [kubo, plaquette] := by
    funext report
    simp only [Function.comp_apply, Report.addChern, List.append_assoc, List.singleton_append]
  exact hboth ▸ Ends.done (.chern hresult.symm hresult'.symm)

variable [ResultCache σ α]

/-- All that a task can do to the report. -/
theorem does_run (task : Task) : (task.run ctx : Run σ α Unit).Does (task.Ends ctx) := by
  have hbody : (task.body ctx : Run σ α Unit).Does (task.Ends ctx) := by
    by_cases hne : task = .chern
    · subst hne
      exact does_runChern ctx
    · exact does_body_of_ne ctx hne
  -- What a task says first changes the log alone.
  intro session
  exact hbody ⟨session.cache, ((session.log.tell ("\n" ++ ruler)).tell
    ("       Starting task: " ++ task.title)).tell ruler⟩

variable {ctx}

/-- What a task has done to the report, given its result. -/
theorem exists_ends (task : Task) (bench : Bench σ α) :
    ∃ change, task.Ends ctx (task.run ctx bench).1 change ∧
      (task.run ctx bench).2.report = change bench.report := by
  obtain ⟨result, after, change, hends, hrun⟩ := does_run ctx task bench.session
  refine ⟨change, ?_, ?_⟩
  · rw [hrun bench.report]
    exact hends
  · rw [hrun bench.report]

/-- The task fails if the second Chern number does. -/
theorem chern_run_eq_error {kubo : ChernResult α} {cause : Failure} (hkubo : ctx.kubo = .ok kubo)
    (hplaquette : ctx.plaquette = .error cause) (bench : Bench σ α) :
    (chern.run ctx bench).1 = .error cause := by
  obtain ⟨change, hends, -⟩ : ∃ change, chern.Ends ctx (chern.run ctx bench).1 change ∧ _ :=
    exists_ends chern bench
  generalize (chern.run ctx bench).1 = result at hends ⊢
  cases hends with
  | done h =>
      cases h with
      | chern _ hok => cases hplaquette.symm.trans hok
  | failed h => cases (h rfl).symm.trans hkubo
  | halfway _ _ hcause =>
      cases hcause.symm.trans hplaquette
      rfl

end Task

/-! ## Failed tasks -/

variable {ctx} [ResultCache σ α]

/-- A task that fails leaves the report as it was, whatever it found in the store and wherever it
failed, with one exception: if the first Chern number could be computed and the second one could
not, the first one has been added to the report, and nothing else has changed. -/
theorem report_of_failed_task {task : Task} {bench : Bench σ α} {cause : Failure}
    (hfailed : (task.run ctx bench).1 = .error cause) :
    ((task.run ctx bench).2.report = bench.report ↔
        ¬ (task = .chern ∧ ∃ kubo, ctx.kubo = .ok kubo)) ∧
      ∀ kubo, task = .chern → ctx.kubo = .ok kubo → ctx.plaquette = .error cause ∧
        (task.run ctx bench).2.report =
          { bench.report with chern := bench.report.chern ++ [kubo] } := by
  obtain ⟨change, hends, hreport⟩ := Task.exists_ends task bench
  rw [hfailed] at hends
  rw [hreport]
  cases hends with
  | failed h =>
      have hkubo : ¬ (task = .chern ∧ ∃ kubo, ctx.kubo = .ok kubo) := by
        rintro ⟨hchern, kubo, hkubo⟩
        cases (h hchern).symm.trans hkubo
      refine ⟨iff_of_true rfl hkubo, fun kubo hchern hok ↦ ?_⟩
      exact absurd ⟨hchern, kubo, hok⟩ hkubo
  | halfway hchern hkubo hplaquette =>
      rename_i kubo
      refine ⟨iff_of_false ?_ fun h ↦ h ⟨hchern, kubo, hkubo⟩, fun other _ hother ↦ ?_⟩
      · intro hsame
        have hlength := congrArg (fun report : Report α ↦ report.chern.length) hsame
        simp [Report.addChern] at hlength
      · cases hkubo.symm.trans hother
        exact ⟨hplaquette, rfl⟩

end

/-- Chern numbers of the lowest conduction band of decoupled layers, on a grid of one point. -/
noncomputable def decoupledContext : TaskContext ℝ where
  model := .continuum (.ofParams Continuum.decoupled)
  evaluator := ⟨1⟩
  solve := coneSolver
  sort := .insertion
  params := { ObservableParams.empty with chernKpNum := some 1 }
  refresh := false

/-- A solver that returns eigenstates, and a task that fails and leaves a Chern number behind. -/
theorem report_of_failed_task_decoupled :
    let before : Bench (MemoryStore ℝ) ℝ :=
      ⟨⟨MemoryStore.empty, #[]⟩, Report.create decoupledContext.bands⟩
    let after := Task.chern.run decoupledContext before
    (∀ k, ∃ levels, coneSolver (decoupledContext.bands.hamiltonian k) = some levels ∧
      ∀ level ∈ levels, level.IsEigen 8 (decoupledContext.bands.hamiltonian k)) ∧
    after.1 =
      fail (.worker 0 .aggregation "vanishing overlap between neighbouring eigenstates") ∧
    after.2.report ≠ before.report ∧
    ∃ kubo, decoupledContext.kubo = .ok kubo ∧
      after.2.report = { before.report with chern := [kubo] } := by
  intro before after
  obtain ⟨kubo, hkubo⟩ := Continuum.kubo_decoupled ⟨1⟩
  have hfailed : after.1 =
      fail (.worker 0 .aggregation "vanishing overlap between neighbouring eigenstates") :=
    Task.chern_run_eq_error (show decoupledContext.kubo = .ok kubo from hkubo)
      Continuum.plaquette_decoupled before
  obtain ⟨hsame, hreport⟩ := report_of_failed_task hfailed
  refine ⟨fun k ↦ ⟨_, Continuum.coneSolver_decoupled k, fun _ ↦ Continuum.isEigen_decoupled k⟩,
    hfailed, fun heq ↦ hsame.mp heq ⟨rfl, kubo, hkubo⟩, kubo, hkubo, ?_⟩
  exact (hreport kubo rfl hkubo).2

end Moire
