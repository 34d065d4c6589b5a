import Mathlib
import Moire.CommandLine.Program
import Moire.Proofs.CacheTransparency
import Moire.Proofs.TaskReports

/-!
# The order of tasks

Tasks of one context share a store, and which of them computes a table and which one reads it
depends on their order. What each of them does is the same in every order, `Task.Settled`: its
result, its change of the report and what it leaves in the store, as long as the store holds nothing
but results of the context. The changes of different tasks commute (`Task.Amends.comm`), and there
is one result to a key (`Faithful.own_unique`). A list of tasks can therefore be run in any order,
`tasks_order_independent`.
-/

namespace Moire

/-! ## Tables that are computed and packed -/

section

variable {α : Type} {compute : Logged (List (List α))}

/-- A table as it is computed and packed. -/
def packed (compute : Logged (List (List α))) : Outcome (List (List α) × StoredArray α) := do
  let rows ← compute.result
  let array ← StoredArray.ofRows rows
  return (rows, array)

/-- Packed rows are there when the rows are computed and their array is made. -/
theorem packed_eq_ok {rows : List (List α)} {array : StoredArray α} :
    packed compute = .ok (rows, array) ↔
      compute.result = .ok rows ∧ StoredArray.ofRows rows = .ok array := by
  unfold packed
  constructor
  · intro h
    obtain ⟨rows', hrows, h⟩ := bind_eq_ok.mp h
    obtain ⟨array', harray, h⟩ := bind_eq_ok.mp h
    cases h
    exact ⟨hrows, harray⟩
  · rintro ⟨hrows, harray⟩
    exact bind_eq_ok.mpr ⟨rows, hrows, bind_eq_ok.mpr ⟨array, harray, rfl⟩⟩

/-- If a table cannot be computed or packed, nothing is stored. -/
theorem run_computeRows_error {σ : Type} [ResultCache σ α] (hsteady : Steady compute)
    {cause : Failure} (hpacked : packed compute = .error cause) (key : String) (s : Session σ) :
    ∃ log, computeRows key compute s = (.error cause, { s with log }) := by
  have hresult : (compute s.log).1 = compute.result := hsteady.result_eq s.log
  refine ⟨(compute s.log).2, ?_⟩
  rw [packed] at hpacked
  cases hrows : compute.result with
  | error other =>
      rw [hrows] at hpacked
      cases hpacked
      exact computeRows_of_error (hresult.trans hrows)
  | ok rows =>
      rw [hrows] at hpacked
      dsimp only [bind, Except.bind] at hpacked
      cases harray : StoredArray.ofRows rows with
      | error other =>
          rw [harray] at hpacked
          cases hpacked
          exact computeRows_of_unpacked (hresult.trans hrows) harray
      | ok array =>
          rw [harray] at hpacked
          cases hpacked

/-- What computing a table leaves under a key. -/
def leavesAt (key : String) (compute : Logged (List (List α))) (other : String) :
    Option (StoredArray α) :=
  if key = other then (packed compute).toOption.map Prod.snd else none

/-- What computing a table returns and leaves in the store. -/
theorem computeRows_eq (hsteady : Steady compute) (key : String) (s : Session (MemoryStore α)) :
    (computeRows key compute s).1 = (packed compute).map Prod.fst ∧ ∀ other,
      (computeRows key compute s).2.cache.get? other =
        (leavesAt key compute other).or (s.cache.get? other) := by
  cases hpacked : packed compute with
  | error cause =>
      obtain ⟨log, hrun⟩ := run_computeRows_error hsteady hpacked key s
      rw [hrun]
      refine ⟨rfl, fun other ↦ ?_⟩
      simp [leavesAt, hpacked, Except.toOption]
  | ok value =>
      obtain ⟨rows, array⟩ := value
      obtain ⟨hrows, harray⟩ := packed_eq_ok.mp hpacked
      obtain ⟨after, hrun, hafter⟩ := run_computeRows hsteady hrows harray key s
      rw [hrun]
      refine ⟨rfl, fun other ↦ ?_⟩
      have hload : Except.ok (after.get? other) =
          if key = other then Except.ok (some array) else Except.ok (s.cache.get? other) :=
        hafter other
      rw [leavesAt, hpacked]
      split at hload
      next hkey =>
        rw [if_pos hkey]
        exact Except.ok.inj hload
      next hkey =>
        rw [if_neg hkey, Option.none_or]
        exact Except.ok.inj hload

end

/-! ## The results of one context -/

variable {α : Type} [Scalar α] {ctx : TaskContext α} {quantity : Quantity} {density : ℕ}
  {compute : Logged (List (List α))}

/-- The context and no other. -/
def Own (ctx : TaskContext α) (_ : Quantity) (other : TaskContext α) : Prop := other = ctx

/-- What a context computes for a quantity is given by the context. -/
theorem TaskContext.Stores.unique {density' : ℕ} {compute' : Logged (List (List α))}
    (h : ctx.Stores quantity density compute) (h' : ctx.Stores quantity density' compute') :
    compute = compute' := by
  cases h with
  | energies | absorption | conductivity =>
      cases h'
      rfl
  | bands hpath | raman hpath =>
      cases h' with
      | _ hpath' =>
          cases hpath.symm.trans hpath'
          rfl

variable [KeyLaws α] {store store' : MemoryStore α}

/-- What is stored under a key of the context is what the context computes. -/
theorem Faithful.own_hit (h : Faithful (Own ctx) store)
    (hstores : ctx.Stores quantity density compute) {array : StoredArray α}
    (hload : ResultCache.load store (ctx.key quantity density) = .ok (some array)) :
    ∃ rows, array.toRows = .ok rows ∧ packed compute = .ok (rows, array) := by
  obtain ⟨other, quantity', density', compute', rows, rfl, hkey, hstores', hrows, harray⟩ :=
    h _ _ trivial hload
  obtain ⟨-, -, rfl, -, -⟩ := TaskContext.key_inj hkey
  obtain rfl := hstores.unique hstores'
  exact ⟨rows, StoredArray.toRows_ofRows harray (hstores'.fits #[] rows hrows),
    packed_eq_ok.mpr ⟨hrows, harray⟩⟩

/-- There is one result to a key. -/
theorem Faithful.own_unique (h : Faithful (Own ctx) store) (h' : Faithful (Own ctx) store')
    {key : String} {array array' : StoredArray α}
    (hload : ResultCache.load store key = .ok (some array))
    (hload' : ResultCache.load store' key = .ok (some array')) : array = array' := by
  obtain ⟨_, quantity, density, compute, rows, rfl, rfl, hstores, hrows, harray⟩ :=
    h _ _ trivial hload
  obtain ⟨rows', -, hpacked⟩ := h'.own_hit hstores hload'
  cases hpacked.symm.trans (packed_eq_ok.mpr ⟨hrows, harray⟩)
  rfl

/-- Rows are the ones that the context computes, and they are in the store from then on, wherever
they came from. -/
theorem TaskContext.storedRows_eq (hstores : ctx.Stores quantity density compute)
    {s : Session (MemoryStore α)} (h : Faithful (Own ctx) s.cache) :
    let key := ctx.key quantity density
    let after := ctx.storedRows quantity key compute s
    after.1 = (packed compute).map Prod.fst ∧ Faithful (Own ctx) after.2.cache ∧
      ∀ other, after.2.cache.get? other = (leavesAt key compute other).or (s.cache.get? other) := by
  intro key after
  rcases ctx.storedRows_cases quantity key compute s with
    ⟨_, hstop, -⟩ | ⟨array, log, hload, hfound⟩ | hcomputed
  · cases hstop
  · obtain ⟨rows, hrows, hpacked⟩ := h.own_hit hstores hload
    rw [show after = (array.toRows, { s with log }) from hfound, hpacked]
    refine ⟨hrows, h, fun other ↦ ?_⟩
    rw [leavesAt, hpacked]
    split
    next hkey => exact hkey ▸ Except.ok.inj hload
    next => rfl
  · rw [show after = computeRows key compute s from hcomputed]
    obtain ⟨hresult, hentries⟩ := computeRows_eq hstores.steady key s
    have htrusted := (agree_computeRows (V := Own ctx) ctx.keepable_memory rfl hstores s s
      ⟨⟨s.cache.usable, h⟩, s.cache.usable⟩).2.1
    exact ⟨hresult, htrusted.faithful, hentries⟩

/-! ## What a task does in any order -/

/-- Stores that are compared: both hold results of the context, and the first one holds what the
second one does over what there was before. -/
structure MemoryStore.Over (ctx : TaskContext α) (before store store' : MemoryStore α) : Prop where
  faithful : Faithful (Own ctx) store
  faithful' : Faithful (Own ctx) store'
  get? (key : String) : store.get? key = (store'.get? key).or (before.get? key)

/-- Sessions that are compared by their stores. -/
def Session.Over (ctx : TaskContext α) (before : MemoryStore α) (s s' : Session (MemoryStore α)) :
    Prop :=
  MemoryStore.Over ctx before s.cache s'.cache

/-- Taking rows changes both stores in the same way. -/
theorem TaskContext.agree_over (before : MemoryStore α)
    (hstores : ctx.Stores quantity density compute) :
    Agree (Session.Over ctx before) (ctx.storedRows quantity (ctx.key quantity density) compute)
      (ctx.storedRows quantity (ctx.key quantity density) compute) := by
  intro s s' hs
  obtain ⟨hresult, hfaithful, hentries⟩ := TaskContext.storedRows_eq hstores hs.faithful
  obtain ⟨hresult', hfaithful', hentries'⟩ := TaskContext.storedRows_eq hstores hs.faithful'
  refine ⟨hresult.trans hresult'.symm, hfaithful, hfaithful', fun key ↦ ?_⟩
  rw [hentries, hentries', hs.get?, Option.or_assoc]

/-- A task does what it does on another store, and leaves there what it leaves on the other one. -/
theorem Task.agree_over (before : MemoryStore α) (task : Task) :
    Agree (S := Bench (MemoryStore α) α) (SameReport (Session.Over ctx before)) (task.run ctx)
      (task.run ctx) := by
  refine Task.agree_of_storedRows (fun hsteady ↦ ?_) ?_
  · exact hsteady.agree_job (R := MemoryStore.Over ctx before)
  · rintro quantity density compute _ - hstores rfl
    exact TaskContext.agree_over before hstores

/-- What a task does on every store that holds results of the context: its result, its change of the
report, and what it leaves in the store. -/
structure Task.Settled (ctx : TaskContext α) (task : Task) (result : Outcome Unit)
    (change : Report α → Report α) (left : MemoryStore α) : Prop where
  ends : task.Ends ctx result change
  faithful : Faithful (Own ctx) left
  run (bench : Bench (MemoryStore α) α) (h : Faithful (Own ctx) bench.session.cache) :
    (task.run ctx bench).1 = result ∧ (task.run ctx bench).2.report = change bench.report ∧
      Faithful (Own ctx) (task.run ctx bench).2.session.cache ∧
      ∀ key, (task.run ctx bench).2.session.cache.get? key =
        (left.get? key).or (bench.session.cache.get? key)

/-- A task does on every such store what it does on an empty one. -/
theorem Task.exists_settled (ctx : TaskContext α) (task : Task) :
    ∃ result change left, task.Settled ctx result change left := by
  obtain ⟨result, after, change, hends, hrun⟩ :=
    Task.does_run ctx task (⟨MemoryStore.empty, #[]⟩ : Session (MemoryStore α))
  have hover : ∀ bench : Bench (MemoryStore α) α, Faithful (Own ctx) bench.session.cache →
      (task.run ctx bench).1 = result ∧
        SameReport (Session.Over ctx bench.session.cache) (task.run ctx bench).2
          ⟨after, change bench.report⟩ := by
    intro bench hbench
    have hempty : SameReport (Session.Over ctx bench.session.cache) bench
        ⟨⟨MemoryStore.empty, #[]⟩, bench.report⟩ := by
      refine ⟨⟨hbench, faithful_empty, fun key ↦ ?_⟩, rfl⟩
      rw [show MemoryStore.empty.get? key = none from Except.ok.inj (MemoryStore.load_empty key)]
      rfl
    have h := Task.agree_over bench.session.cache task bench _ hempty
    rwa [hrun bench.report] at h
  refine ⟨result, change, after.cache, hends, ?_, fun bench hbench ↦ ?_⟩
  · exact (hover ⟨⟨MemoryStore.empty, #[]⟩, Report.create ctx.bands⟩ faithful_empty).2.1.faithful'
  · obtain ⟨hresult, hstores, hreport⟩ := hover bench hbench
    exact ⟨hresult, hreport, hstores.faithful, hstores.get?⟩

omit [KeyLaws α] in
/-- The changes of different tasks can be made in either order. -/
theorem Task.Amends.comm {task task' : Task} {change change' : Report α → Report α}
    (h : task.Amends ctx change) (h' : task'.Amends ctx change') (hne : task ≠ task')
    (report : Report α) : change (change' report) = change' (change report) := by
  cases h <;> cases h' <;> first | exact absurd rfl hne | rfl

/-- What two stores of the context hold can be added in either order. -/
theorem Faithful.or_comm {store store' : MemoryStore α} (h : Faithful (Own ctx) store)
    (h' : Faithful (Own ctx) store') (key : String) (found : Option (StoredArray α)) :
    (store.get? key).or ((store'.get? key).or found) =
      (store'.get? key).or ((store.get? key).or found) := by
  cases hload : store.get? key with
  | none => rfl
  | some array =>
      cases hload' : store'.get? key with
      | none => rfl
      | some array' =>
          rw [h.own_unique h' (congrArg Except.ok hload) (congrArg Except.ok hload')]

/-! ## Lists of tasks -/

/-- What every task does on stores that hold results of the context. -/
structure Effects (ctx : TaskContext α) where
  result : Task → Outcome Unit
  change : Task → Report α → Report α
  left : Task → MemoryStore α
  settled (task : Task) : task.Settled ctx (result task) (change task) (left task)

/-- Each task has its effect. -/
theorem Effects.nonempty (ctx : TaskContext α) : Nonempty (Effects ctx) := by
  choose result change left settled using Task.exists_settled ctx
  exact ⟨⟨result, change, left, settled⟩⟩

namespace Effects

section

variable (effects : Effects ctx)

/-- The report after tasks that succeed. -/
def report (tasks : List Task) (report : Report α) : Report α :=
  tasks.foldl (fun report task ↦ effects.change task report) report

/-- What is under a key after tasks that succeed. -/
def found (key : String) (tasks : List Task) (found : Option (StoredArray α)) :
    Option (StoredArray α) :=
  tasks.foldl (fun found task ↦ ((effects.left task).get? key).or found) found

omit [KeyLaws α] in
/-- The report does not depend on the order of tasks that all end well. -/
theorem report_perm {tasks tasks' : List Task} (hperm : tasks.Perm tasks')
    (hok : ∀ task ∈ tasks, effects.result task = .ok ()) (report : Report α) :
    effects.report tasks report = effects.report tasks' report := by
  refine hperm.foldl_eq' (fun task htask task' htask' report ↦ ?_) report
  by_cases hsame : task = task'
  · rw [hsame]
  have hends := (effects.settled task).ends
  have hends' := (effects.settled task').ends
  rw [hok task htask] at hends
  rw [hok task' htask'] at hends'
  cases hends with
  | done h =>
      cases hends' with
      | done h' => exact h'.comm h (Ne.symm hsame) report

/-- What is found under a key does not depend on the order of the tasks. -/
theorem found_perm (key : String) {tasks tasks' : List Task} (hperm : tasks.Perm tasks')
    (found : Option (StoredArray α)) :
    effects.found key tasks found = effects.found key tasks' found :=
  hperm.foldl_eq' (fun task _ task' _ found ↦ (effects.settled task').faithful.or_comm
    (effects.settled task).faithful key found) found

end

/-- A list of tasks succeeds if each of them does, and the report and the store are then what their
effects make of them one after the other. -/
theorem runAll_eq {ctx : TaskContext Float} (effects : Effects ctx) (tasks : List Task)
    {bench : Bench (MemoryStore Float) Float} (h : Faithful (Own ctx) bench.session.cache) :
    ((Program.runAll ctx tasks bench).1 = .ok () ↔
        ∀ task ∈ tasks, effects.result task = .ok ()) ∧
      ((Program.runAll ctx tasks bench).1 = .ok () →
        (Program.runAll ctx tasks bench).2.report = effects.report tasks bench.report ∧
        ∀ key, (Program.runAll ctx tasks bench).2.session.cache.get? key =
          effects.found key tasks (bench.session.cache.get? key)) := by
  induction tasks generalizing bench with
  | nil => exact ⟨iff_of_true rfl nofun, fun _ ↦ ⟨rfl, fun _ ↦ rfl⟩⟩
  | cons task tasks ih =>
      obtain ⟨hresult, hreport, hfaithful, hfound⟩ := (effects.settled task).run bench h
      rw [List.forall_mem_cons]
      unfold Program.runAll
      rcases hrun : task.run ctx bench with ⟨result, after⟩
      rw [hrun] at hresult hreport hfaithful hfound
      dsimp only at hresult
      cases result with
      | error cause =>
          rw [← hresult]
          exact ⟨iff_of_false nofun nofun, nofun⟩
      | ok =>
          obtain ⟨hsuccess, hafter⟩ := ih hfaithful
          refine ⟨hsuccess.trans (and_iff_right hresult.symm).symm, fun hok ↦ ?_⟩
          obtain ⟨hreports, hfounds⟩ := hafter hok
          refine ⟨?_, fun key ↦ ?_⟩
          · rw [hreports, hreport]
            rfl
          · rw [hfounds, hfound]
            rfl

/-- Tasks that succeed on an empty store each for itself succeed one after the other. -/
theorem runAll_succeeds {ctx : TaskContext Float} {tasks : List Task} {report : Report Float}
    (h : ∀ task ∈ tasks,
      (task.run ctx (⟨⟨MemoryStore.empty, #[]⟩, report⟩ : Bench _ _)).1 = .ok ()) (log : Log) :
    (Program.runAll ctx tasks
      (⟨⟨MemoryStore.empty, log⟩, report⟩ : Bench (MemoryStore Float) Float)).1 = .ok () := by
  obtain ⟨effects⟩ := Effects.nonempty ctx
  refine (effects.runAll_eq tasks faithful_empty).1.mpr fun task htask ↦ ?_
  rw [← h task htask]
  exact ((effects.settled task).run _ faithful_empty).1.symm

end Effects

/-- A store is given by what is under its keys. -/
theorem MemoryStore.toList_eq {β : Type} {store store' : MemoryStore β}
    (h : ∀ key, store.get? key = store'.get? key) : store.entries.toList = store'.entries.toList :=
  (Std.TreeMap.Equiv.of_forall_constGet?_eq h).toList_eq

/-- A task that succeeds changes its own section of the report and nothing else. Tasks of one
context that begin with an empty store succeed or not in whatever order they are run, and if they
do, they end with the same report and with the same keys and arrays in the store. -/
theorem tasks_order_independent (ctx : TaskContext Float) :
    (∀ (task : Task) (bench : Bench (MemoryStore Float) Float), (task.run ctx bench).1 = .ok () →
      ∃ change, task.Amends ctx change ∧ (task.run ctx bench).2.report = change bench.report) ∧
    ∀ (tasks tasks' : List Task), tasks.Perm tasks' →
      ∀ (report : Report Float) (log log' : Log),
        let first := Program.runAll ctx tasks ⟨⟨MemoryStore.empty, log⟩, report⟩
        let second := Program.runAll ctx tasks' ⟨⟨MemoryStore.empty, log'⟩, report⟩
        (first.1 = .ok () ↔ second.1 = .ok ()) ∧ (first.1 = .ok () →
          first.2.report = second.2.report ∧
          first.2.session.cache.entries.toList = second.2.session.cache.entries.toList) := by
  refine ⟨fun task bench hok ↦ ?_, fun tasks tasks' hperm report log log' ↦ ?_⟩
  · obtain ⟨change, hends, hreport⟩ := Task.exists_ends task bench
    rw [hok] at hends
    cases hends with
    | done h => exact ⟨change, h, hreport⟩
  · intro first second
    obtain ⟨effects⟩ := Effects.nonempty ctx
    obtain ⟨hsuccess, hafter⟩ := effects.runAll_eq tasks
      (show Faithful (Own ctx) (⟨⟨MemoryStore.empty, log⟩, report⟩ : Bench _ _).session.cache from
        faithful_empty)
    obtain ⟨hsuccess', hafter'⟩ := effects.runAll_eq tasks'
      (show Faithful (Own ctx) (⟨⟨MemoryStore.empty, log'⟩, report⟩ : Bench _ _).session.cache from
        faithful_empty)
    have hiff : first.1 = .ok () ↔ second.1 = .ok () := by
      rw [hsuccess, hsuccess']
      exact forall_congr' fun task ↦ imp_congr hperm.mem_iff Iff.rfl
    refine ⟨hiff, fun hok ↦ ?_⟩
    obtain ⟨hreport, hfound⟩ := hafter hok
    obtain ⟨hreport', hfound'⟩ := hafter' (hiff.mp hok)
    refine ⟨?_, MemoryStore.toList_eq fun key ↦ ?_⟩
    · rw [hreport, hreport', effects.report_perm hperm (hsuccess.mp hok)]
    · rw [hfound, hfound', effects.found_perm key hperm]

/-- Two atoms without a hopping. -/
def apartAtoms : TightBinding.Model Float where
  params := .default
  cell := .create 1 1 1
  lattice := ⟨#[], 0⟩
  atoms := #[⟨0, 0, 0⟩, ⟨0, 0, 1⟩]
  hoppings := #[]

/-- One point of the zone, with a level on each side of the gap. -/
def onePoint : TaskContext Float where
  model := .tightBinding apartAtoms
  evaluator := ⟨2⟩
  solve := fun _ ↦ some [⟨-1, #[]⟩, ⟨1, #[]⟩]
  sort := .insertion
  params := { ObservableParams.empty with kpNum := some 1, bandWindow := some ⟨-1, 1⟩ }
  refresh := false

/-- The window at every point is the pair of the two energies. -/
theorem windowAt_onePoint (k : KPoint Float) :
    windowAt onePoint.bands onePoint.solve onePoint.window k = .ok [-1, 1] := by
  have hentry (i j : ℕ) : apartAtoms.pairEntry k i j = Cplx.zero := rfl
  have hhamiltonian : apartAtoms.hamiltonian k = CMatrix.ofFn 2 2 fun i j ↦
      if i < j then Cplx.zero else if j < i then Cplx.zero.conj else Cplx.zero := by
    simp only [TightBinding.Model.hamiltonian, hentry]
    rfl
  have hfinite : (CMatrix.ofFn 2 2 fun i j ↦ if i < j then Cplx.zero else
      if j < i then Cplx.zero.conj else (Cplx.zero : Cplx Float)).isFinite = true := by
    decide +kernel
  have hspectrum : onePoint.bands.spectrum onePoint.solve k = .ok ⟨#[⟨-1, #[]⟩, ⟨1, #[]⟩]⟩ := by
    show Spectrum.ofHamiltonian onePoint.solve (apartAtoms.hamiltonian k) = _
    rw [hhamiltonian, Spectrum.ofHamiltonian, hfinite]
    rfl
  exact bind_eq_ok.mpr ⟨_, hspectrum, rfl⟩

/-- The row of the point is stored and its difference reported. -/
theorem energyDifference_onePoint (report : Report Float) :
    (Task.energyDifference.run onePoint
      (⟨⟨MemoryStore.empty, #[]⟩, report⟩ : Bench _ _)).1 = .ok () := by
  obtain ⟨k, hpoint⟩ : ∃ k, onePoint.grid = .ok [k] := ⟨_, rfl⟩
  have hrows : onePoint.energiesOverGrid.result = .ok [[-1, 1]] :=
    returns_bind (show _ = Except.ok [k] from hpoint) fun _ ↦ returns_bind rfl fun _ ↦
      Evaluator.evaluate_eq_ok _ (congrArg (fun row ↦ [row]) (windowAt_onePoint k).symm)
  have hgrid : ∀ log, (Task.gridEnergies onePoint (⟨MemoryStore.empty, log⟩ : Session _)).1 =
      .ok [[-1, 1]] := by
    intro log
    rw [Task.gridEnergies, cachedRows_miss (MemoryStore.load_empty _)]
    exact (computeRows_eq_ok (TaskContext.steady_energiesOverGrid _) hrows rfl _ _).1
  exact (Task.run_energyDifference hgrid rfl rfl).1

/-- The differences at one point, which take turns with spectra for no photon energies, in two
orders. -/
theorem tasks_order_independent_onePoint :
    let report := Report.create onePoint.bands
    let tasks : List Task := [.absorption, .energyDifference, .conductivity, .energyDifference]
    let tasks' : List Task := [.energyDifference, .energyDifference, .conductivity, .absorption]
    let first := Program.runAll onePoint tasks ⟨⟨MemoryStore.empty, #[]⟩, report⟩
    let second := Program.runAll onePoint tasks' ⟨⟨MemoryStore.empty, #[]⟩, report⟩
    tasks.Perm tasks' ∧ first.1 = .ok () ∧ second.1 = .ok () ∧
      first.2.report = second.2.report ∧
      first.2.session.cache.entries.toList = second.2.session.cache.entries.toList := by
  intro report tasks tasks'
  have hperm : tasks.Perm tasks' := by decide
  have hfirst : (Program.runAll onePoint tasks
      (⟨⟨MemoryStore.empty, #[]⟩, report⟩ : Bench _ _)).1 = .ok () := by
    refine Effects.runAll_succeeds (List.forall_mem_cons.mpr ⟨rfl, List.forall_mem_cons.mpr
      ⟨energyDifference_onePoint _, List.forall_mem_cons.mpr ⟨rfl, ?_⟩⟩⟩) #[]
    exact List.forall_mem_singleton.mpr (energyDifference_onePoint _)
  obtain ⟨hiff, hsame⟩ :=
    (tasks_order_independent onePoint).2 tasks tasks' hperm report #[] #[]
  exact ⟨hperm, hfirst, hiff.mp hfirst, hsame hfirst⟩

end Moire
