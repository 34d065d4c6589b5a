import Mathlib
import Moire.Proofs.Breakdowns
import Moire.Proofs.CacheTransparency
import Moire.Proofs.RealScalar
import Moire.Store.Folder

/-!
# Stored arrays of any content

An array that is found under a key may be damaged. The table that a task takes depends on the
content of the store alone, `TaskContext.tableFrom`, and the ways in which a task can break down on
a store are listed once, `Task.Breaks`. The list is complete and has no entry too many,
`Task.run_eq_breakDown`: the argument follows the steps of each task, a table
(`Task.tableStep_eq_breakDown`) and what is made of it. Read `Task.run_of_any_content` last, which
says when an entry is missing and when a sort stops.
-/

namespace Moire

/-- A store that does not break down. It may fail. -/
class SoundCache (σ : Type) {α : Type} [ResultCache σ α] : Prop where
  load_ne_breakDown (store : σ) (key : String) (fault : Fault) :
    ResultCache.load store key ≠ breakDown fault
  save_ne_breakDown (store : σ) (key : String) (array : StoredArray α) (fault : Fault) :
    ResultCache.save store key array ≠ breakDown fault

instance {α : Type} : SoundCache (MemoryStore α) where
  load_ne_breakDown _ _ _ := nofun
  save_ne_breakDown _ _ _ _ := nofun

instance : SoundCache PickleFolder where
  load_ne_breakDown folder key fault := by
    show folder.load key ≠ _
    unfold PickleFolder.load
    dsimp only
    split
    · nofun
    split
    · nofun
    split <;> nofun
  save_ne_breakDown folder key array fault := by
    show folder.save key array ≠ _
    unfold PickleFolder.save
    split <;> nofun

instance : SoundCache ResultStore where
  load_ne_breakDown store key fault := by
    cases store with
    | memory store => exact SoundCache.load_ne_breakDown store key fault
    | folder store => exact SoundCache.load_ne_breakDown store key fault
  save_ne_breakDown store key array fault := by
    cases store with
    | memory store => nofun
    | folder store =>
        show PickleFolder.save store key array >>= _ ≠ _
        intro hfault
        rcases bind_eq_breakDown.mp hfault with hsave | ⟨_, _, hdone⟩
        · exact SoundCache.save_ne_breakDown store key array fault hsave
        · cases hdone

/-! ## Tables from the store -/

/-- The width of the rows of a spectrum. -/
def Quantity.width? : Quantity → Option ℕ
  | .absorption => some 2
  | .conductivity => some 3
  | .energies | .bands | .raman => none

section

variable {σ α : Type} [ResultCache σ α]

/-- The outcome of computing a table and storing it. -/
def computedTable (store : σ) (key : String) (compute : Logged (List (List α))) :
    Outcome (List (List α)) := do
  let rows ← compute.result
  let array ← StoredArray.ofRows rows
  let _ ← ResultCache.save store key array
  return rows

variable {key : String} {compute : Logged (List (List α))}

/-- What computing and storing rows returns depends on the store alone. -/
theorem computeRows_result (hsteady : Steady compute) (s : Session σ) :
    (computeRows key compute s).1 = computedTable s.cache key compute := by
  have hcompute : ((liftM compute : Job σ _) s).1 = compute.result := hsteady.result_eq s.log
  rw [computeRows, run_bind_result, hcompute]
  refine congrArg (compute.result >>= ·) (funext fun rows ↦ ?_)
  rw [run_bind_result]
  refine congrArg (StoredArray.ofRows rows >>= ·) (funext fun array ↦ ?_)
  rw [run_bind_result]
  show (Job.save key array { s with log := _ }).1 >>= _ = _
  unfold Job.save
  dsimp only
  cases ResultCache.save s.cache key array <;> rfl

variable [Scalar α] {ctx : TaskContext α} {quantity : Quantity}

/-- The table that a task takes from a store, or else computes. -/
def TaskContext.tableFrom (ctx : TaskContext α) (store : σ) (quantity : Quantity) (key : String)
    (compute : Logged (List (List α))) : Outcome (List (List α)) := do
  match ← ResultCache.load store key with
  | none => computedTable store key compute
  | some array => do
      let rows ← array.toRows
      if quantity.width?.all (answersPhotons ctx.photons · rows) then return rows
      else computedTable store key compute

/-- The table depends on the content of the store alone. -/
theorem storedRows_result (hrefresh : ctx.refresh = false) (hsteady : Steady compute)
    (s : Session σ) :
    (ctx.storedRows quantity key compute s).1 = ctx.tableFrom s.cache quantity key compute := by
  have hcached : quantity.width? = none → (cachedRows key ctx.refresh compute s).1 =
      ctx.tableFrom s.cache quantity key compute := by
    intro hwidth
    rw [cachedRows, hrefresh, if_neg Bool.false_ne_true, run_bind_result]
    refine congrArg (ResultCache.load s.cache key >>= ·) (funext fun found ↦ ?_)
    cases found with
    | none => exact computeRows_result hsteady s
    | some array =>
        dsimp only
        rw [hwidth]
        show array.toRows = _
        cases array.toRows <;> rfl
  have hspectrum : ∀ width, quantity.width? = some width →
      (Task.spectrumRows ctx key width compute s).1 =
        ctx.tableFrom s.cache quantity key compute := by
    intro width hwidth
    rw [Task.spectrumRows, hrefresh, if_neg Bool.false_ne_true, run_bind_result]
    refine congrArg (ResultCache.load s.cache key >>= ·) (funext fun found ↦ ?_)
    cases found with
    | none => exact computeRows_result hsteady s
    | some array =>
        dsimp only
        rw [hwidth, run_bind_result]
        refine congrArg (array.toRows >>= ·) (funext fun rows ↦ ?_)
        dsimp only [Option.all_some]
        split
        · rfl
        · exact computeRows_result hsteady s
  cases quantity with
  | absorption => exact hspectrum 2 rfl
  | conductivity => exact hspectrum 3 rfl
  | energies | bands | raman => exact hcached rfl

/-- The rows of a spectrum have its width, whether they come from the store or not. -/
theorem haveWidth_tableFrom {store : σ} {width : ℕ} (hquantity : quantity.width? = some width)
    (hcompute : Ensures compute (HaveWidth width)) {rows : List (List α)}
    (hrows : ctx.tableFrom store quantity key compute = .ok rows) : HaveWidth width rows := by
  have hcomputed (h : computedTable store key compute = .ok rows) : HaveWidth width rows := by
    obtain ⟨_, htable, h⟩ := bind_eq_ok.mp h
    obtain ⟨_, -, h⟩ := bind_eq_ok.mp h
    obtain ⟨_, -, h⟩ := bind_eq_ok.mp h
    cases h
    exact hcompute #[] _ htable
  obtain ⟨found, -, hrows⟩ := bind_eq_ok.mp hrows
  cases found with
  | none => exact hcomputed hrows
  | some array =>
      obtain ⟨table, -, hrows⟩ := bind_eq_ok.mp hrows
      rw [hquantity, Option.all_some] at hrows
      split at hrows
      next hanswers =>
        cases hrows
        exact haveWidth_of_answersPhotons hanswers
      next => exact hcomputed hrows

/-- The store has nothing under the key, or a spectrum for other photon energies. -/
inductive TaskContext.Lacks (ctx : TaskContext α) (store : σ) (quantity : Quantity) (key : String) :
    Prop
  | missing (h : ResultCache.load store key = .ok none)
  | stale {array : StoredArray α} {rows : List (List α)}
      (hload : ResultCache.load store key = .ok (some array)) (hrows : array.toRows = .ok rows)
      (hother : ¬ quantity.width?.all (answersPhotons ctx.photons · rows) = true)

/-- How a table breaks down that is taken from the store, or else computed. -/
inductive TaskContext.TableBreaks (ctx : TaskContext α) (store : σ) (quantity : Quantity)
    (key : String) (compute : Logged (List (List α))) : Fault → Prop
  /-- The stored table has more empty rows than memory holds. -/
  | unpacking {count : ℕ} {data : List α}
      (hload : ResultCache.load store key = .ok (some ⟨[count, 0], data⟩))
      (hmany : memoryLimit ≤ count * StoredArray.rowSize) :
      TableBreaks ctx store quantity key compute .capacityOverflow
  /-- A table that the store lacks breaks down while it is computed or packed. -/
  | computing {fault : Fault} (hlacks : ctx.Lacks store quantity key)
      (h : (compute.result >>= StoredArray.ofRows) = breakDown fault) :
      TableBreaks ctx store quantity key compute fault

variable [SoundCache σ] {store : σ} {fault : Fault}

omit [Scalar α] in
/-- Computing and storing a table breaks down only while it is computed or packed. -/
theorem computedTable_eq_breakDown (store : σ) (key : String) :
    computedTable store key compute = breakDown fault ↔
      (compute.result >>= StoredArray.ofRows) = breakDown fault := by
  unfold computedTable
  rw [bind_eq_breakDown, bind_eq_breakDown]
  refine or_congr_right (exists_congr fun rows ↦ and_congr_right fun _ ↦ ?_)
  rw [bind_eq_breakDown]
  constructor
  · rintro (hpack | ⟨array, -, hsave⟩)
    · exact hpack
    rcases bind_eq_breakDown.mp hsave with hsave | ⟨_, -, hdone⟩
    · exact absurd hsave (SoundCache.save_ne_breakDown _ _ _ _)
    · cases hdone
  · exact Or.inl

/-- Getting a table breaks down as `TableBreaks` says. -/
theorem tableFrom_eq_breakDown : ctx.tableFrom store quantity key compute = breakDown fault ↔
    ctx.TableBreaks store quantity key compute fault := by
  unfold TaskContext.tableFrom
  rw [bind_eq_breakDown]
  constructor
  · rintro (hload | ⟨found, hload, hfault⟩)
    · exact absurd hload (SoundCache.load_ne_breakDown _ _ _)
    cases found with
    | none => exact .computing (.missing hload) ((computedTable_eq_breakDown _ _).mp hfault)
    | some array =>
        rcases bind_eq_breakDown.mp hfault with hrows | ⟨rows, hrows, hfault⟩
        · obtain ⟨shape, data⟩ := array
          obtain ⟨count, rfl, hmany, rfl⟩ := StoredArray.toRows_eq_breakDown.mp hrows
          exact .unpacking hload hmany
        · split at hfault
          · cases hfault
          next hother =>
            exact .computing (.stale hload hrows hother)
              ((computedTable_eq_breakDown _ _).mp hfault)
  · intro hbreaks
    right
    cases hbreaks with
    | @unpacking count data hload hmany =>
        refine ⟨_, hload, bind_eq_breakDown.mpr (Or.inl ?_)⟩
        exact StoredArray.toRows_eq_breakDown.mpr ⟨count, rfl, hmany, rfl⟩
    | computing hlacks hfault =>
        rw [← computedTable_eq_breakDown store key] at hfault
        cases hlacks with
        | missing hload => exact ⟨none, hload, hfault⟩
        | @stale array rows hload hrows hother =>
            refine ⟨some array, hload, bind_eq_breakDown.mpr (Or.inr ⟨rows, hrows, ?_⟩)⟩
            rw [if_neg hother]
            exact hfault

omit [SoundCache σ] in
/-- Only sizes make a table break down. -/
theorem TaskContext.TableBreaks.isSize {density : ℕ}
    (h : ctx.TableBreaks store quantity key compute fault)
    (hstores : ctx.Stores quantity density compute) : fault.IsSize := by
  cases h with
  | unpacking => trivial
  | computing _ hfault => exact hstores.sizeFaults.bind sizeFaults_ofRows fault hfault

/-! ## Tasks -/

/-- The energies over the grid that tasks share, from a store or computed. -/
def TaskContext.gridTable (ctx : TaskContext α) (store : σ) : Outcome (List (List α)) :=
  ctx.tableFrom store .energies (ctx.windowKey "energies" ctx.kpNum) ctx.energiesOverGrid

namespace Task

/-- How a task breaks down on a store. -/
inductive Breaks (ctx : TaskContext α) (store : σ) : Task → Fault → Prop
  /-- The path of the band structure has too many points. -/
  | bandsPath {fault : Fault}
      (h : ctx.model.defaultPath.sample ctx.density true = breakDown fault) :
      Breaks ctx store .bands fault
  /-- The sort stops on the energies of the band structure, whose median is to be found. -/
  | bandsSort {path : KPath α} {rows : List (List α)}
      (hpath : ctx.model.defaultPath.sample ctx.density true = .ok path)
      (hrows : ctx.tableFrom store .bands (ctx.windowKey "bands" path.length)
        (ctx.energiesAlong path) = .ok rows)
      (hshifted : ctx.params.shiftToHalfFilling.getD true = true)
      (hsort : ctx.sort rows.flatten = none) : Breaks ctx store .bands .inconsistentOrder
  /-- The path of the Raman spectrum has too many points. -/
  | ramanPath {fault : Fault}
      (h : ctx.model.ramanPath.sample ctx.density false = breakDown fault) :
      Breaks ctx store .raman fault
  /-- The table that the task takes breaks down. -/
  | table {task : Task} {quantity : Quantity} {density : ℕ} {compute : Logged (List (List α))}
      {fault : Fault} (hquantity : task.quantity? = some quantity)
      (hstores : ctx.Stores quantity density compute)
      (h : ctx.TableBreaks store quantity (ctx.key quantity density) compute fault) :
      Breaks ctx store task fault
  /-- The stored amplitudes end with a row that is shorter than the others. -/
  | shortRow {path : KPath α} {array : StoredArray α} {left : ℕ}
      (hpath : ctx.model.ramanPath.sample ctx.density false = .ok path)
      (hload : ResultCache.load store (ctx.ramanKey path.length) = .ok (some array))
      (hshort : array.EndsShort left) :
      Breaks ctx store .raman (.indexOutOfBounds (left / 2) (left / 2))
  /-- There are too many bins for energies. -/
  | dosBins {rows : List (List α)} (hrows : ctx.gridTable store = .ok rows) (hne : rows ≠ [])
      (h : Histogram.Overflows rows.flatten (ctx.params.dosBins.getD 200) ctx.params.dosRange) :
      Breaks ctx store .dos .capacityOverflow
  /-- A row has too many pairs of bands. -/
  | jdosPairs {rows : List (List α)} {gap : ℕ} {row : List α}
      (hrows : ctx.gridTable store = .ok rows) (hgap : ctx.window.valenceCount = .ok gap)
      (hrow : row ∈ rows) (h : memoryLimit ≤ pairCount row gap * 8) :
      Breaks ctx store .jdos .capacityOverflow
  /-- There are too many bins for transitions. -/
  | jdosBins {rows : List (List α)} {gap : ℕ} {differences : List (List α)}
      (hrows : ctx.gridTable store = .ok rows) (hgap : ctx.window.valenceCount = .ok gap)
      (hne : rows ≠ []) (hdifferences : rows.mapM (transitionEnergies · gap) = .ok differences)
      (h : Histogram.Overflows differences.flatten (ctx.params.dosBins.getD 200)
        ctx.params.jdosRange) : Breaks ctx store .jdos .capacityOverflow
  /-- The lower end of the window cannot be negated. -/
  | jdosWindow {rows : List (List α)} (hrows : ctx.gridTable store = .ok rows)
      (h : Word.signed64.holds (-ctx.window.lower) = false) :
      Breaks ctx store .jdos (.overflow .negate)
  /-- The lower end of the window cannot be negated. -/
  | pairWindow {rows : List (List α)} (hrows : ctx.gridTable store = .ok rows)
      (h : Word.signed64.holds (-ctx.window.lower) = false) :
      Breaks ctx store .energyDifference (.overflow .negate)
  /-- The upper band of the pair has no index. -/
  | pair {rows : List (List α)} {gap : ℕ} (hrows : ctx.gridTable store = .ok rows)
      (hgap : ctx.window.valenceCount = .ok gap) (hne : rows ≠ [])
      (h : PairOverflows gap (ctx.params.transitionPair.getD (1, 1)).1
        (ctx.params.transitionPair.getD (1, 1)).2) :
      Breaks ctx store .energyDifference (.overflow .add)

omit [ResultCache σ α] [Scalar α] [SoundCache σ] in
/-- A step that amends the report breaks down where its work does. -/
theorem amendStep_eq_breakDown {β : Type} {work : Outcome β} {change : β → Report α → Report α}
    (bench : Bench σ α) :
    (((liftM work : Run σ α β) >>= fun value ↦ Run.amend (change value)) bench).1 =
      breakDown fault ↔ work = breakDown fault := by
  rw [run_bind_eq_breakDown]
  constructor
  · rintro (hwork | ⟨_, -, hdone⟩)
    · exact hwork
    · cases hdone
  · exact Or.inl

/-- A step that takes a table breaks down with the table, or with what is done next. -/
theorem tableStep_eq_breakDown {β : Type} {next : List (List α) → Run σ α β} {density : ℕ}
    {Q : List (List α) → Prop} (hrefresh : ctx.refresh = false)
    (hstores : ctx.Stores quantity density compute)
    {bench : Bench σ α}
    (hnext : ∀ rows, ctx.tableFrom bench.session.cache quantity key compute = .ok rows →
      ∀ after, (next rows after).1 = breakDown fault ↔ Q rows) :
    ((Run.ofJob (ctx.storedRows quantity key compute) >>= next) bench).1 = breakDown fault ↔
      ctx.TableBreaks bench.session.cache quantity key compute fault ∨
      ∃ rows, ctx.tableFrom bench.session.cache quantity key compute = .ok rows ∧ Q rows := by
  have htable : ((Run.ofJob (ctx.storedRows quantity key compute) : Run σ α _) bench).1 =
      ctx.tableFrom bench.session.cache quantity key compute :=
    storedRows_result hrefresh hstores.steady bench.session
  rw [run_bind_eq_breakDown, htable, tableFrom_eq_breakDown]
  exact or_congr_right (exists_congr fun rows ↦ and_congr_right fun hrows ↦ hnext rows hrows _)

variable {bench : Bench σ α}

/-- The bands break down as `Breaks` says. -/
theorem runBands_eq_breakDown (hsort : ctx.sort.Lawful) (hrefresh : ctx.refresh = false) :
    (runBands ctx bench).1 = breakDown fault ↔ Breaks ctx bench.session.cache .bands fault := by
  have hnext (path : KPath α) (rows : List (List α)) (after : Bench σ α) :
      ((do
        let bands ← BandStructure.ofPathEnergies ctx.sort rows path.labels path.labelPositions
          (ctx.params.shiftToHalfFilling.getD true)
        Run.amend ({ · with bands := some bands }) : Run σ α Unit) after).1 = breakDown fault ↔
      ctx.params.shiftToHalfFilling.getD true = true ∧ ctx.sort rows.flatten = none ∧
        fault = .inconsistentOrder :=
    (amendStep_eq_breakDown after).trans (BandStructure.ofPathEnergies_eq_breakDown hsort)
  rw [runBands, run_bind_eq_breakDown]
  constructor
  · rintro (hpath | ⟨path, hpath, htable⟩)
    · exact .bandsPath hpath
    · have hstores : ctx.Stores .bands path.length (ctx.energiesAlong path) := .bands hpath rfl
      rcases (tableStep_eq_breakDown hrefresh hstores fun rows _ ↦ hnext path rows).mp htable with
        hbreaks | ⟨rows, hrows, hshifted, hstops, rfl⟩
      · rw [ctx.windowKey_bands] at hbreaks
        exact .table rfl hstores hbreaks
      · exact .bandsSort hpath hrows hshifted hstops
  · intro hbreaks
    cases hbreaks with
    | bandsPath hpath => exact Or.inl hpath
    | @bandsSort path rows hpath hrows hshifted hstops =>
        exact Or.inr ⟨path, hpath, (tableStep_eq_breakDown hrefresh (.bands hpath rfl)
          fun rows _ ↦ hnext path rows).mpr (Or.inr ⟨rows, hrows, hshifted, hstops, rfl⟩)⟩
    | table hquantity hstores hbreaks =>
        cases hquantity
        cases hstores with
        | @bands _ path hpath hdensity =>
            subst hdensity
            rw [← ctx.windowKey_bands] at hbreaks
            exact Or.inr ⟨path, hpath, (tableStep_eq_breakDown hrefresh (.bands hpath rfl)
              fun rows _ ↦ hnext path rows).mpr (Or.inl hbreaks)⟩

omit [SoundCache σ] in
/-- Amplitudes are taken from the store, or else they are packed, so that their rows have one
width. -/
theorem ramanTable_breaks {key : String} {area : α} {rows : List (List α)}
    (hrows : ctx.tableFrom store .raman key compute = .ok rows)
    (hfault : Raman.ofRows key area rows = breakDown fault) :
    ∃ array left, ResultCache.load store key = .ok (some array) ∧
      StoredArray.EndsShort array left ∧ fault = .indexOutOfBounds (left / 2) (left / 2) := by
  obtain ⟨found, hload, hrows⟩ := bind_eq_ok.mp hrows
  cases found with
  | none =>
      obtain ⟨table, -, hrows⟩ := bind_eq_ok.mp hrows
      obtain ⟨array, hpack, hrows⟩ := bind_eq_ok.mp hrows
      obtain ⟨_, -, hrows⟩ := bind_eq_ok.mp hrows
      cases hrows
      exact absurd hfault
        (Raman.ofRows_ne_breakDown
          (rectangular_iff.mp (StoredArray.ofRows_eq_ok_iff.mp hpack).1) key area fault)
  | some array =>
      obtain ⟨table, htable, hrows⟩ := bind_eq_ok.mp hrows
      cases hrows
      obtain ⟨left, hshort, hleft⟩ := (Raman.ofRows_toRows htable key area fault).mp hfault
      exact ⟨array, left, hload, hshort, hleft⟩

/-- The Raman terms break down as `Breaks` says. -/
theorem runRaman_eq_breakDown (hrefresh : ctx.refresh = false) :
    (runRaman ctx bench).1 = breakDown fault ↔ Breaks ctx bench.session.cache .raman fault := by
  have hnext : ∀ key (rows : List (List α)) (bench : Bench σ α),
      ((do
        let terms ← rows.mapM (m := Outcome) (ramanRow key)
        let spectrum ← Raman.ofTerms terms ctx.bands.unitCellArea
        Run.amend ({ · with raman := some spectrum }) : Run σ α Unit) bench).1 = breakDown fault ↔
      Raman.ofRows key ctx.bands.unitCellArea rows = breakDown fault := by
    intro key rows bench
    rw [run_bind_eq_breakDown, Raman.ofRows, bind_eq_breakDown]
    exact or_congr_right (exists_congr fun terms ↦ and_congr_right fun _ ↦
      amendStep_eq_breakDown _)
  rw [runRaman, run_bind_eq_breakDown]
  constructor
  · rintro (hpath | ⟨path, hpath, htable⟩)
    · exact .ramanPath hpath
    · have hstores : ctx.Stores .raman path.length (ctx.ramanRows path.points) := .raman hpath rfl
      rcases (tableStep_eq_breakDown hrefresh hstores fun rows _ ↦ hnext _ rows).mp htable with
        hbreaks | ⟨rows, hrows, hfault⟩
      · rw [ctx.ramanKey_eq] at hbreaks
        exact .table rfl hstores hbreaks
      · obtain ⟨array, left, hload, hshort, rfl⟩ := ramanTable_breaks hrows hfault
        exact .shortRow hpath hload hshort
  · intro hbreaks
    cases hbreaks with
    | ramanPath hpath => exact Or.inl hpath
    | table hquantity hstores hbreaks =>
        cases hquantity
        cases hstores with
        | @raman _ path hpath hdensity =>
            subst hdensity
            rw [← ctx.ramanKey_eq] at hbreaks
            exact Or.inr ⟨path, hpath, (tableStep_eq_breakDown hrefresh (.raman hpath rfl)
              fun rows _ ↦ hnext _ rows).mpr (Or.inl hbreaks)⟩
    | @shortRow path array left hpath hload hshort =>
        obtain ⟨rows, hrows⟩ := hshort.toRows_eq_ok
        have htable : ctx.tableFrom bench.session.cache .raman (ctx.ramanKey path.length)
            (ctx.ramanRows path.points) = .ok rows :=
          bind_eq_ok.mpr ⟨some array, hload, bind_eq_ok.mpr ⟨rows, hrows, rfl⟩⟩
        exact Or.inr ⟨path, hpath, (tableStep_eq_breakDown hrefresh (.raman hpath rfl)
          fun rows _ ↦ hnext _ rows).mpr (Or.inr ⟨rows, htable,
            (Raman.ofRows_toRows hrows _ _ _).mpr ⟨left, hshort, rfl⟩⟩)⟩

omit [SoundCache σ] in
/-- There is one table of energies over the grid. -/
theorem tableBreaks_energies {density : ℕ} (hstores : ctx.Stores .energies density compute)
    (h : ctx.TableBreaks store .energies (ctx.key .energies density) compute fault) :
    ctx.TableBreaks store .energies (ctx.key .energies ctx.kpNum) ctx.energiesOverGrid fault := by
  cases hstores with
  | energies hdensity =>
      subst hdensity
      exact h

/-- A task on the energies over the grid breaks down with them, or with what is made of them. -/
theorem gridStep_eq_breakDown {β : Type} {work : List (List α) → Outcome β}
    {change : β → Report α → Report α} (hrefresh : ctx.refresh = false) :
    ((Run.ofJob (gridEnergies ctx) >>= fun energies ↦
      liftM (work energies) >>= fun value ↦ Run.amend (change value)) bench).1 = breakDown fault ↔
      ctx.TableBreaks bench.session.cache .energies (ctx.key .energies ctx.kpNum)
        ctx.energiesOverGrid fault ∨
      ∃ rows, ctx.gridTable bench.session.cache = .ok rows ∧ work rows = breakDown fault := by
  rw [← ctx.windowKey_energies]
  exact tableStep_eq_breakDown hrefresh (.energies rfl) fun rows _ ↦ amendStep_eq_breakDown

/-- The density of states breaks down as `Breaks` says. -/
theorem runDos_eq_breakDown (hrefresh : ctx.refresh = false) :
    (runDos ctx bench).1 = breakDown fault ↔ Breaks ctx bench.session.cache .dos fault := by
  refine (gridStep_eq_breakDown hrefresh).trans ⟨?_, fun hbreaks ↦ ?_⟩
  · rintro (hbreaks | ⟨rows, hrows, hwork⟩)
    · exact .table rfl (.energies rfl) hbreaks
    · obtain ⟨hpoints, hoverflows, rfl⟩ := ofSamples_eq_breakDown.mp hwork
      exact .dosBins hrows (List.ne_nil_of_length_pos (Nat.pos_of_ne_zero hpoints)) hoverflows
  · cases hbreaks with
    | table hquantity hstores hbreaks =>
        cases hquantity
        exact Or.inl (tableBreaks_energies hstores hbreaks)
    | dosBins hrows hne hoverflows =>
        exact Or.inr ⟨_, hrows, ofSamples_eq_breakDown.mpr
          ⟨(List.length_pos_of_ne_nil hne).ne', hoverflows, rfl⟩⟩

/-- The joint density of states breaks down as `Breaks` says. -/
theorem runJdos_eq_breakDown (hrefresh : ctx.refresh = false) :
    (runJdos ctx bench).1 = breakDown fault ↔ Breaks ctx bench.session.cache .jdos fault := by
  refine (gridStep_eq_breakDown hrefresh).trans ⟨?_, fun hbreaks ↦ ?_⟩
  · rintro (hbreaks | ⟨rows, hrows, hwork⟩)
    · exact .table rfl (.energies rfl) hbreaks
    rcases bind_eq_breakDown.mp hwork with hwindow | ⟨gap, hgap, hwork⟩
    · obtain ⟨hlower, rfl⟩ := valenceCount_eq_breakDown.mp hwindow
      exact .jdosWindow hrows hlower
    rcases bind_eq_breakDown.mp hwork with hpairs | ⟨differences, hdifferences, hwork⟩
    · obtain ⟨⟨row, hrow, hmany⟩, rfl⟩ := mapM_transitionEnergies_eq_breakDown.mp hpairs
      exact .jdosPairs hrows hgap hrow hmany
    · obtain ⟨hpoints, hoverflows, rfl⟩ := ofSamples_eq_breakDown.mp hwork
      exact .jdosBins hrows hgap (List.ne_nil_of_length_pos (Nat.pos_of_ne_zero hpoints))
        hdifferences hoverflows
  · cases hbreaks with
    | table hquantity hstores hbreaks =>
        cases hquantity
        exact Or.inl (tableBreaks_energies hstores hbreaks)
    | jdosWindow hrows hlower =>
        exact Or.inr ⟨_, hrows, bind_eq_breakDown.mpr (Or.inl
          (valenceCount_eq_breakDown.mpr ⟨hlower, rfl⟩))⟩
    | jdosPairs hrows hgap hrow hmany =>
        exact Or.inr ⟨_, hrows, bind_eq_breakDown.mpr (Or.inr ⟨_, hgap, bind_eq_breakDown.mpr
          (Or.inl (mapM_transitionEnergies_eq_breakDown.mpr ⟨⟨_, hrow, hmany⟩, rfl⟩))⟩)⟩
    | jdosBins hrows hgap hne hdifferences hoverflows =>
        exact Or.inr ⟨_, hrows, bind_eq_breakDown.mpr (Or.inr ⟨_, hgap, bind_eq_breakDown.mpr
          (Or.inr ⟨_, hdifferences, ofSamples_eq_breakDown.mpr
            ⟨(List.length_pos_of_ne_nil hne).ne', hoverflows, rfl⟩⟩)⟩)⟩

/-- The energy differences break down as `Breaks` says. -/
theorem runEnergyDifference_eq_breakDown (hrefresh : ctx.refresh = false) :
    (runEnergyDifference ctx bench).1 = breakDown fault ↔
      Breaks ctx bench.session.cache .energyDifference fault := by
  refine (gridStep_eq_breakDown hrefresh).trans ⟨?_, fun hbreaks ↦ ?_⟩
  · rintro (hbreaks | ⟨rows, hrows, hwork⟩)
    · exact .table rfl (.energies rfl) hbreaks
    rcases energyDifferences_eq_breakDown.mp hwork with hwindow | ⟨gap, hgap, hne, hpair, rfl⟩
    · obtain ⟨hlower, rfl⟩ := valenceCount_eq_breakDown.mp hwindow
      exact .pairWindow hrows hlower
    · exact .pair hrows hgap hne hpair
  · cases hbreaks with
    | table hquantity hstores hbreaks =>
        cases hquantity
        exact Or.inl (tableBreaks_energies hstores hbreaks)
    | pairWindow hrows hlower =>
        exact Or.inr ⟨_, hrows, energyDifferences_eq_breakDown.mpr (Or.inl
          (valenceCount_eq_breakDown.mpr ⟨hlower, rfl⟩))⟩
    | pair hrows hgap hne hpair =>
        exact Or.inr ⟨_, hrows, energyDifferences_eq_breakDown.mpr (Or.inr
          ⟨_, hgap, hne, hpair, rfl⟩)⟩

/-- A task for a spectrum breaks down only with its table, whose rows have all that is looked up. -/
theorem spectrumStep_eq_breakDown {next : List (List α) → Run σ α Unit} {width density : ℕ}
    (hrefresh : ctx.refresh = false) (hstores : ctx.Stores quantity density compute)
    (hquantity : quantity.width? = some width) (hcompute : Ensures compute (HaveWidth width))
    (hnext : ∀ rows, HaveWidth width rows → ∀ after, (next rows after).1 = .ok ()) :
    ((Run.ofJob (ctx.storedRows quantity key compute) >>= next) bench).1 = breakDown fault ↔
      ctx.TableBreaks bench.session.cache quantity key compute fault := by
  have hrows (rows : List (List α))
      (h : ctx.tableFrom bench.session.cache quantity key compute = .ok rows) (after : Bench σ α) :
      (next rows after).1 = breakDown fault ↔ False := by
    rw [hnext rows (haveWidth_tableFrom hquantity hcompute h)]
    exact ⟨nofun, nofun⟩
  refine (tableStep_eq_breakDown hrefresh hstores hrows).trans (or_iff_left ?_)
  rintro ⟨_, -, hfalse⟩
  exact hfalse

/-- The absorption breaks down as `Breaks` says. -/
theorem runAbsorption_eq_breakDown (hrefresh : ctx.refresh = false) :
    (runAbsorption ctx bench).1 = breakDown fault ↔
      Breaks ctx bench.session.cache .absorption fault := by
  refine (spectrumStep_eq_breakDown hrefresh (.absorption rfl) rfl ctx.haveWidth_absorptionRows
    fun _ hwidth _ ↦ congrArg Prod.fst (hwidth.absorption_eq _)).trans
      ⟨fun hbreaks ↦ ?_, fun hbreaks ↦ ?_⟩
  · rw [ctx.absorptionKey_eq] at hbreaks
    exact .table rfl (.absorption rfl) hbreaks
  · cases hbreaks with
    | table hquantity hstores hbreaks =>
        cases hquantity
        cases hstores with
        | absorption hdensity =>
            subst hdensity
            rw [← ctx.absorptionKey_eq] at hbreaks
            exact hbreaks

/-- The conductivity breaks down as `Breaks` says. -/
theorem runConductivity_eq_breakDown (hrefresh : ctx.refresh = false) :
    (runConductivity ctx bench).1 = breakDown fault ↔
      Breaks ctx bench.session.cache .conductivity fault := by
  refine (spectrumStep_eq_breakDown hrefresh (.conductivity rfl) rfl ctx.haveWidth_conductivityRows
    fun _ hwidth _ ↦ congrArg Prod.fst (hwidth.conductivity_eq _)).trans
      ⟨fun hbreaks ↦ ?_, fun hbreaks ↦ ?_⟩
  · rw [ctx.conductivityKey_eq] at hbreaks
    exact .table rfl (.conductivity rfl) hbreaks
  · cases hbreaks with
    | table hquantity hstores hbreaks =>
        cases hquantity
        cases hstores with
        | conductivity hdensity =>
            subst hdensity
            rw [← ctx.conductivityKey_eq] at hbreaks
            exact hbreaks

/-- A task that takes a table breaks down in the ways that are listed, and in no other. -/
theorem run_eq_breakDown (hsort : ctx.sort.Lawful) (hrefresh : ctx.refresh = false) {task : Task}
    (hcached : task.quantity?.isSome) : (task.run ctx bench).1 = breakDown fault ↔
      Breaks ctx bench.session.cache task fault := by
  obtain ⟨log, hrun⟩ := task.run_eq ctx bench
  rw [hrun]
  cases task with
  | bands => exact runBands_eq_breakDown hsort hrefresh
  | dos => exact runDos_eq_breakDown hrefresh
  | jdos => exact runJdos_eq_breakDown hrefresh
  | absorption => exact runAbsorption_eq_breakDown hrefresh
  | conductivity => exact runConductivity_eq_breakDown hrefresh
  | raman => exact runRaman_eq_breakDown hrefresh
  | energyDifference => exact runEnergyDifference_eq_breakDown hrefresh
  | chern | fermiVelocity | patch => cases hcached

omit [SoundCache σ] in
/-- Only stored amplitudes can make an index miss its entry. -/
theorem Breaks.indexOutOfBounds {task : Task} {length index : ℕ}
    (h : Breaks ctx store task (.indexOutOfBounds length index)) :
    task = .raman ∧ ∃ path array left, ctx.model.ramanPath.sample ctx.density false = .ok path ∧
      ResultCache.load store (ctx.ramanKey path.length) = .ok (some array) ∧
      array.EndsShort left ∧ length = left / 2 ∧ index = left / 2 := by
  cases h with
  | bandsPath hpath => exact (sizeFaults_sample _ _ _ _ hpath).elim
  | ramanPath hpath => exact (sizeFaults_sample _ _ _ _ hpath).elim
  | table hquantity hstores hbreaks => exact (hbreaks.isSize hstores).elim
  | shortRow hpath hload hshort => exact ⟨rfl, _, _, _, hpath, hload, hshort, rfl, rfl⟩

omit [SoundCache σ] in
/-- Only energies that are not numbers can make a sort stop. -/
theorem Breaks.inconsistentOrder (hsort : ctx.sort.Lawful) {task : Task}
    (h : Breaks ctx store task .inconsistentOrder) :
    task = .bands ∧ ∃ path rows, ctx.model.defaultPath.sample ctx.density true = .ok path ∧
      ctx.tableFrom store .bands (ctx.windowKey "bands" path.length) (ctx.energiesAlong path) =
        .ok rows ∧ ∃ x ∈ rows.flatten, Number.isNumber x = false := by
  cases h with
  | bandsPath hpath => exact (sizeFaults_sample _ _ _ _ hpath).elim
  | ramanPath hpath => exact (sizeFaults_sample _ _ _ _ hpath).elim
  | table hquantity hstores hbreaks => exact (hbreaks.isSize hstores).elim
  | bandsSort hpath hrows _ hstops =>
      exact ⟨rfl, _, _, hpath, hrows, hsort.exists_of_none hstops⟩

/-- A task runs on a store of any content, damaged arrays included, without looking up an entry that
is not there, except for one case: stored Raman amplitudes whose last row is shorter than the others
and of even width are summed column by column up to the end of that row, where the task breaks down.
The other breakdowns are listed: more empty rows than memory holds, more pairs of bands in a row
than memory holds, energies along the path on which the sort stops, which it does only if some of
them are not numbers, and requests that are too large whatever is stored. -/
theorem run_of_any_content (hsort : ctx.sort.Lawful) (hrefresh : ctx.refresh = false) {task : Task}
    (hcached : task.quantity?.isSome) (bench : Bench σ α) :
    (∀ fault, (task.run ctx bench).1 = breakDown fault ↔
      Breaks ctx bench.session.cache task fault) ∧
    (∀ length index, (task.run ctx bench).1 = breakDown (.indexOutOfBounds length index) ↔
      task = .raman ∧ ∃ path array left, ctx.model.ramanPath.sample ctx.density false = .ok path ∧
        ResultCache.load bench.session.cache (ctx.ramanKey path.length) = .ok (some array) ∧
        array.EndsShort left ∧ length = left / 2 ∧ index = left / 2) ∧
    ((task.run ctx bench).1 = breakDown .inconsistentOrder →
      task = .bands ∧ ∃ path rows, ctx.model.defaultPath.sample ctx.density true = .ok path ∧
        ctx.tableFrom bench.session.cache .bands (ctx.windowKey "bands" path.length)
          (ctx.energiesAlong path) = .ok rows ∧ ∃ x ∈ rows.flatten, Number.isNumber x = false) := by
  have hbreaks (fault : Fault) : (task.run ctx bench).1 = breakDown fault ↔
      Breaks ctx bench.session.cache task fault := run_eq_breakDown hsort hrefresh hcached
  refine ⟨hbreaks, fun length index ↦ ?_,
    fun hfault ↦ ((hbreaks _).mp hfault).inconsistentOrder hsort⟩
  rw [hbreaks]
  constructor
  · exact Breaks.indexOutOfBounds
  · rintro ⟨rfl, path, array, left, hpath, hload, hshort, rfl, rfl⟩
    exact .shortRow hpath hload hshort

end Task

end

/-- Without a density a path has no points. -/
theorem sides_zero (vertices : List (KPoint ℝ)) :
    ∃ segments, sides 0 vertices = .ok segments ∧ segments.flatten = [] := by
  fun_induction sides (0 : ℝ) vertices with
  | case1 p q rest ih =>
      obtain ⟨segments, hsegments, hflatten⟩ := ih
      have hcount : sideCount 0 p q = 0 := by
        show min ⌊(q - p).norm * 0⌋₊ RealScalar.largestCount = 0
        rw [mul_zero, Nat.floor_zero, Nat.zero_min]
      have hside : segment p q (sideCount 0 p q) false = .ok [] := by
        rw [hcount]
        rfl
      exact ⟨[] :: segments, bind_eq_ok.mpr ⟨[], hside, bind_eq_ok.mpr ⟨segments, hsegments, rfl⟩⟩,
        hflatten⟩
  | case2 => exact ⟨[], rfl, rfl⟩

/-- Two rows of amplitudes, the second of which lacks one. -/
theorem run_of_any_content_short :
    let params : ObservableParams ℝ :=
      { ObservableParams.empty with pathDensity := some 0, numHalf := some 1 }
    let ctx : TaskContext ℝ :=
      ⟨.continuum (.ofParams .default), ⟨1⟩, fun _ ↦ none, .strict, params, false⟩
    let store := MemoryStore.empty.insert (ctx.ramanKey 0) ⟨[2, 4], [1, 2, 3, 4, 5, 6]⟩
    let bench : Bench (MemoryStore ℝ) ℝ := ⟨⟨store, #[]⟩, Report.create ctx.bands⟩
    (Task.raman.run ctx bench).1 = breakDown (.indexOutOfBounds 1 1) := by
  intro params ctx store bench
  have hdensity : Number.nonnegative ctx.density = 0 := by
    have hzero : ctx.density = 0 := zero_div _
    rw [hzero]
    simp [Number.nonnegative]
  obtain ⟨segments, hsegments, hflatten⟩ := sides_zero ctx.model.ramanPath.vertices
  have hpath : ctx.model.ramanPath.sample ctx.density false = .ok
      ⟨segments ++ [], partialSums 0 (segments.map List.length), ctx.model.ramanPath.labels⟩ := by
    refine bind_eq_ok.mpr ⟨_, bind_eq_ok.mpr ⟨segments, ?_, rfl⟩, rfl⟩
    rw [hdensity]
    exact hsegments
  have hlength : (segments ++ []).flatten.length = 0 := by
    rw [List.append_nil, hflatten, List.length_nil]
  have hload : ResultCache.load store (ctx.ramanKey (segments ++ []).flatten.length) =
      .ok (some ⟨[2, 4], [1, 2, 3, 4, 5, 6]⟩) := by
    rw [hlength]
    exact congrArg Except.ok (by simp [store, MemoryStore.insert, MemoryStore.get?])
  have hshort : StoredArray.EndsShort (⟨[2, 4], [1, 2, 3, 4, 5, 6]⟩ : StoredArray ℝ) 2 :=
    ⟨⟨2, 4, rfl, by decide, by decide, by simp, by simp⟩, two_pos, by decide⟩
  exact ((Task.run_of_any_content Sorter.lawful_strict rfl rfl bench).2.1 1 1).mpr
    ⟨rfl, _, _, 2, hpath, hload, hshort, rfl, rfl⟩

end Moire
