import Mathlib.Tactic
import Moire.Proofs.StoredRows

/-!
# Stored results do not change what a run reports

A store is lawful, `LawfulCache`, if as long as it is sound it is read without failure, it keeps
what is saved under each key, and whether it takes something under a key does not change. A sound
store is faithful for some contexts if every array in it was computed in one of them and stored
under its key, `Faithful`. A task keeps a store sound and faithful (`Task.trusted_run`), and on a
faithful store it has the outcome and the report that it has when it computes everything again
(`Task.agree_run`). The latter needs that contexts with the same model name and angle in their keys
have the same bands, `Coherent`. The argument follows the steps of a task
(`Task.agree_of_storedRows`): a table from the store is the table that would be computed
(`agree_cachedRows`, `agree_spectrumRows`). Read `report_eq_refreshed` last, which puts tasks of one
model one after the other, beginning with an empty store.
-/

namespace Moire

/-- A store that, while it is sound, is read without failure and keeps arrays of some kind under
keys of some kind. There may be keys under which nothing can be saved; which these are does not
change. -/
class LawfulCache (σ : Type) {α : Type} [ResultCache σ α] (plain : outParam (String → Prop))
    (kept : outParam (StoredArray α → Prop)) where
  /-- The store can be read and written. -/
  Sound : σ → Prop
  /-- Why nothing is saved under a key. -/
  refusal : σ → String → Option Failure
  load_cases {store : σ} {key : String} (h : Sound store) (hkey : plain key) :
    ResultCache.load store key = .ok none ∨
      refusal store key = none ∧ ∃ array, ResultCache.load store key = .ok (some array)
  save_of_refusal {store : σ} {key : String} {cause : Failure} (array : StoredArray α)
    (h : Sound store) (hkey : plain key) (hrefusal : refusal store key = some cause) :
    ResultCache.save store key array = .error cause
  save_eq_ok {store : σ} {key : String} {array : StoredArray α} (h : Sound store)
    (hkey : plain key) (harray : kept array) (hrefusal : refusal store key = none) :
    ∃ after, ResultCache.save store key array = .ok after ∧ Sound after ∧
      (∀ other, plain other → refusal after other = refusal store other) ∧
      ∀ other, plain other → ResultCache.load after other =
        if key = other then .ok (some array) else ResultCache.load store other

/-- After an array is put in, its key has it and the other keys have what they had. -/
theorem MemoryStore.get?_insert {α : Type} (store : MemoryStore α) (key : String)
    (array : StoredArray α) (other : String) :
    (store.insert key array).get? other = if key = other then some array else store.get? other := by
  unfold MemoryStore.insert MemoryStore.get?
  rw [Std.TreeMap.getElem?_insert]
  simp

/-- In memory every array is kept under every key. -/
instance {α : Type} : LawfulCache (MemoryStore α) (fun _ ↦ True) fun _ ↦ True where
  Sound _ := True
  refusal _ _ := none
  load_cases {store key} _ _ := by
    rcases hload : store.get? key with _ | array
    · exact Or.inl (congrArg Except.ok hload)
    · exact Or.inr ⟨rfl, array, congrArg Except.ok hload⟩
  save_of_refusal _ _ _ hrefusal := nomatch hrefusal
  save_eq_ok {store key array} _ _ _ _ := by
    refine ⟨store.insert key array, rfl, trivial, fun _ _ ↦ rfl, fun other _ ↦ ?_⟩
    show Except.ok ((store.insert key array).get? other) =
      if key = other then Except.ok (some array) else Except.ok (store.get? other)
    rw [MemoryStore.get?_insert, ← apply_ite]

/-- The empty store has nothing under any key. -/
theorem MemoryStore.load_empty {α : Type} (key : String) :
    ResultCache.load (MemoryStore.empty : MemoryStore α) key = .ok none :=
  congrArg Except.ok (by simp [MemoryStore.empty, MemoryStore.get?])

/-! ## Where rows come from -/

section

variable {σ α : Type} [ResultCache σ α]

section

variable {key : String} {compute : Logged (List (List α))} {s : Session σ}

/-- An array in the store is unpacked, and nothing is computed. -/
theorem cachedRows_found {array : StoredArray α}
    (hload : ResultCache.load s.cache key = .ok (some array)) (compute : Logged (List (List α))) :
    cachedRows key false compute s =
      (array.toRows, { s with log := s.log.tell s!"Loaded {key} from cache" }) := by
  have hfound : (Job.load key s).1 = .ok (some array) := hload
  exact (run_bind_ok hfound _).trans (run_bind_ok rfl _)

/-- A computation that stops leaves the store as it was. -/
theorem computeRows_of_error {cause : Failure} (h : (compute s.log).1 = .error cause) :
    computeRows key compute s = (.error cause, { s with log := (compute s.log).2 }) := by
  have hcompute : (Job.ofLogged compute s).1 = .error cause := h
  exact run_bind_error hcompute _

/-- Rows that cannot be packed leave the store as it was. -/
theorem computeRows_of_unpacked {rows : List (List α)} (h : (compute s.log).1 = .ok rows)
    {cause : Failure} (hpack : StoredArray.ofRows rows = .error cause) :
    computeRows key compute s = (.error cause, { s with log := (compute s.log).2 }) := by
  have hcompute : (Job.ofLogged compute s).1 = .ok rows := h
  exact (run_bind_ok hcompute _).trans (run_bind_error hpack _)

/-- Rows that can be packed are saved before they are returned. -/
theorem computeRows_of_packed {rows : List (List α)} (h : (compute s.log).1 = .ok rows)
    {array : StoredArray α} (hpack : StoredArray.ofRows rows = .ok array) :
    computeRows key compute s =
      (Job.save key array >>= fun _ ↦ pure rows) { s with log := (compute s.log).2 } := by
  have hcompute : (Job.ofLogged compute s).1 = .ok rows := h
  exact (run_bind_ok hcompute _).trans (run_bind_ok hpack _)

end

/-- A table in the store is taken as it is. -/
theorem cachedRows_hit {store : σ} {key : String} {array : StoredArray α}
    (hload : ResultCache.load store key = .ok (some array)) {rows : List (List α)}
    (hrows : array.toRows = .ok rows) (compute : Logged (List (List α))) (log : Log) :
    (cachedRows key false compute ⟨store, log⟩).1 = .ok rows := by
  rw [cachedRows_found hload]
  exact hrows

/-- A table that is not in the store is computed. -/
theorem cachedRows_miss {store : σ} {key : String}
    (hload : ResultCache.load store key = .ok none) (refresh : Bool)
    (compute : Logged (List (List α))) (log : Log) :
    cachedRows key refresh compute ⟨store, log⟩ = computeRows key compute ⟨store, log⟩ := by
  cases refresh with
  | true => rfl
  | false => exact run_bind_ok (show (Job.load key ⟨store, log⟩).1 = .ok none from hload) _

/-- A table is found in the store, which then stays as it is, or the store cannot be read, or the
table is computed and stored. -/
theorem cachedRows_cases (key : String) (refresh : Bool) (compute : Logged (List (List α)))
    (s : Session σ) :
    (∃ cause, ResultCache.load s.cache key = .error cause ∧
        cachedRows key refresh compute s = (.error cause, s)) ∨
      (∃ array log, ResultCache.load s.cache key = .ok (some array) ∧
        cachedRows key refresh compute s = (array.toRows, { s with log })) ∨
      cachedRows key refresh compute s = computeRows key compute s := by
  cases refresh with
  | true => exact Or.inr (Or.inr rfl)
  | false =>
      rcases hload : ResultCache.load s.cache key with cause | _ | array
      · have hstop : (Job.load key s).1 = .error cause := hload
        exact Or.inl ⟨cause, rfl, run_bind_error hstop _⟩
      · exact Or.inr (Or.inr (cachedRows_miss hload false compute s.log))
      · exact Or.inr (Or.inl ⟨array, _, rfl, cachedRows_found hload compute⟩)

end

section

variable {σ α : Type} [ResultCache σ α] [Scalar α] {ctx : TaskContext α}
  {compute : Logged (List (List α))}

namespace Task

/-- Stored rows are taken if they pass the check, and computed again if not. -/
theorem spectrumRows_found {key : String} {width : ℕ} {s : Session σ}
    (hrefresh : ctx.refresh = false) {array : StoredArray α}
    (hload : ResultCache.load s.cache key = .ok (some array)) {stored : List (List α)}
    (hrows : array.toRows = .ok stored) :
    spectrumRows ctx key width compute s =
      if answersPhotons ctx.photons width stored = true then
        (.ok stored, { s with log := s.log.tell s!"Loaded {key} from cache" })
      else computeRows key compute s := by
  have hfound : (Job.load key s).1 = .ok (some array) := hload
  have hunpack : ((liftM array.toRows : Job σ _) s).1 = .ok stored := hrows
  rw [spectrumRows, if_neg (Bool.eq_false_iff.mp hrefresh), run_bind_ok hfound]
  refine (run_bind_ok hunpack _).trans ?_
  split
  · exact run_bind_ok rfl _
  · rfl

/-- The store cannot be read, or a spectrum that passes the check is found in it, which then stays
as it is, or the spectrum is computed and stored. -/
theorem spectrumRows_cases (ctx : TaskContext α) (key : String) (width : ℕ)
    (compute : Logged (List (List α))) (s : Session σ) :
    (∃ cause, ResultCache.load s.cache key = .error cause ∧
        spectrumRows ctx key width compute s = (.error cause, s)) ∨
      (∃ array log, ResultCache.load s.cache key = .ok (some array) ∧
        spectrumRows ctx key width compute s = (array.toRows, { s with log }) ∧
        ∀ rows, array.toRows = .ok rows → answersPhotons ctx.photons width rows = true) ∨
      spectrumRows ctx key width compute s = computeRows key compute s := by
  rcases hrefresh : ctx.refresh with _ | _
  · rcases hload : ResultCache.load s.cache key with cause | _ | array
    · have hstop : (Job.load key s).1 = .error cause := hload
      refine Or.inl ⟨cause, rfl, ?_⟩
      rw [spectrumRows, if_neg (Bool.eq_false_iff.mp hrefresh), run_bind_error hstop]
      rfl
    · have hnone : (Job.load key s).1 = .ok none := hload
      refine Or.inr (Or.inr ?_)
      rw [spectrumRows, if_neg (Bool.eq_false_iff.mp hrefresh), run_bind_ok hnone]
      rfl
    · rcases hrows : array.toRows with cause | stored
      · have hfound : (Job.load key s).1 = .ok (some array) := hload
        have hstop : ((liftM array.toRows : Job σ _) s).1 = .error cause := hrows
        refine Or.inr (Or.inl ⟨array, s.log, rfl, ?_, fun rows hok ↦ ?_⟩)
        · rw [hrows, spectrumRows, if_neg (Bool.eq_false_iff.mp hrefresh), run_bind_ok hfound]
          exact run_bind_error hstop _
        · cases hrows.symm.trans hok
      · rw [spectrumRows_found hrefresh hload hrows]
        split
        next hanswers =>
          refine Or.inr (Or.inl ⟨array, _, rfl, by rw [hrows], fun rows hok ↦ ?_⟩)
          cases hrows.symm.trans hok
          exact hanswers
        next => exact Or.inr (Or.inr rfl)
  · rw [spectrumRows, if_pos hrefresh]
    exact Or.inr (Or.inr rfl)

end Task

/-- The rows of a quantity as a task takes them, from the store or computed. -/
def TaskContext.storedRows (ctx : TaskContext α) (quantity : Quantity) (key : String)
    (compute : Logged (List (List α))) : Job σ (List (List α)) :=
  match quantity with
  | .absorption => Task.spectrumRows ctx key 2 compute
  | .conductivity => Task.spectrumRows ctx key 3 compute
  | .energies | .bands | .raman => cachedRows key ctx.refresh compute

/-- The rows of a quantity are found in the store, which then stays as it is, or the store cannot be
read, or they are computed and stored. -/
theorem TaskContext.storedRows_cases (ctx : TaskContext α) (quantity : Quantity) (key : String)
    (compute : Logged (List (List α))) (s : Session σ) :
    (∃ cause, ResultCache.load s.cache key = .error cause ∧
        ctx.storedRows quantity key compute s = (.error cause, s)) ∨
      (∃ array log, ResultCache.load s.cache key = .ok (some array) ∧
        ctx.storedRows quantity key compute s = (array.toRows, { s with log })) ∨
      ctx.storedRows quantity key compute s = computeRows key compute s := by
  have hspectrum (width : ℕ) :
      (∃ cause, ResultCache.load s.cache key = .error cause ∧
          Task.spectrumRows ctx key width compute s = (.error cause, s)) ∨
        (∃ array log, ResultCache.load s.cache key = .ok (some array) ∧
          Task.spectrumRows ctx key width compute s = (array.toRows, { s with log })) ∨
        Task.spectrumRows ctx key width compute s = computeRows key compute s := by
    obtain hstop | ⟨array, log, hload, hrun, -⟩ | hrun :=
      Task.spectrumRows_cases ctx key width compute s
    · exact Or.inl hstop
    · exact Or.inr (Or.inl ⟨array, log, hload, hrun⟩)
    · exact Or.inr (Or.inr hrun)
  cases quantity with
  | absorption | conductivity => exact hspectrum _
  | energies | bands | raman => exact cachedRows_cases key _ compute s

end

/-! ## Stores that can be used -/

section

variable {σ α : Type} [ResultCache σ α] {plain : String → Prop} {kept : StoredArray α → Prop}
  [LawfulCache σ plain kept] {refused : String → Option Failure} {key : String}
  {array : StoredArray α}

/-- The store is sound, and it takes nothing under the keys that are refused. -/
structure Usable (refused : String → Option Failure) (store : σ) : Prop where
  sound : LawfulCache.Sound α store
  refusal_eq {key : String} (hkey : plain key) : LawfulCache.refusal α store key = refused key

/-- A usable store answers for every plain key. -/
theorem Usable.load_eq_ok {store : σ} (h : Usable refused store) (hkey : plain key) :
    ∃ found, ResultCache.load store key = .ok found := by
  rcases LawfulCache.load_cases h.sound hkey with hload | ⟨-, array, hload⟩
  · exact ⟨none, hload⟩
  · exact ⟨some array, hload⟩

/-- A key under which something was found is not refused. -/
theorem Usable.refused_eq_none {store : σ} (h : Usable refused store) (hkey : plain key)
    (hload : ResultCache.load store key = .ok (some array)) : refused key = none := by
  rcases LawfulCache.load_cases h.sound hkey with hnone | ⟨hrefusal, -⟩
  · cases hnone.symm.trans hload
  · exact (h.refusal_eq hkey).symm.trans hrefusal

/-- Nothing is saved under a key that is refused. -/
theorem Usable.run_save_of_refused {s : Session σ} (h : Usable refused s.cache) (hkey : plain key)
    {cause : Failure} (hrefused : refused key = some cause) (array : StoredArray α) :
    Job.save key array s = (.error cause, s) := by
  have hsave : ResultCache.save s.cache key array = .error cause :=
    LawfulCache.save_of_refusal array h.sound hkey ((h.refusal_eq hkey).trans hrefused)
  unfold Job.save
  rw [hsave]

/-- What is saved is found again, and all else in the store stays. -/
theorem Usable.run_save {s : Session σ} (h : Usable refused s.cache) (hkey : plain key)
    (harray : kept array) (hrefused : refused key = none) :
    ∃ after, Job.save key array s = (.ok (), { s with cache := after }) ∧
      Usable refused after ∧ ∀ other, plain other → ResultCache.load after other =
        if key = other then .ok (some array) else ResultCache.load s.cache other := by
  obtain ⟨after, hsave, hsound, hrefusal, hafter⟩ :=
    LawfulCache.save_eq_ok h.sound hkey harray ((h.refusal_eq hkey).trans hrefused)
  refine ⟨after, ?_, ⟨hsound, fun hother ↦ ?_⟩, hafter⟩
  · unfold Job.save
    rw [hsave]
  · exact (hrefusal _ hother).trans (h.refusal_eq hother)

/-- What is computed is returned and stored, and all else in the store stays. -/
theorem Usable.run_computeRows {s : Session σ} (h : Usable refused s.cache)
    (hkey : plain key) (hrefused : refused key = none) {compute : Logged (List (List α))}
    (hsteady : Steady compute) {rows : List (List α)} (hrows : compute.result = .ok rows)
    (harray : StoredArray.ofRows rows = .ok array) (hkept : kept array) :
    ∃ after, computeRows key compute s =
        (.ok rows, { (Job.ofLogged compute s).2 with cache := after }) ∧
      Usable refused after ∧ ∀ other, plain other → ResultCache.load after other =
        if key = other then .ok (some array) else ResultCache.load s.cache other := by
  have hcompute : (compute s.log).1 = .ok rows := (hsteady.result_eq s.log).trans hrows
  have hlogged : Usable refused { s with log := (compute s.log).2 }.cache := h
  obtain ⟨after, hsave, hafter⟩ := hlogged.run_save hkey hkept hrefused
  refine ⟨after, ?_, hafter⟩
  rw [computeRows_of_packed hcompute harray, run_bind, hsave]
  rfl

end

section

variable {α : Type} {compute : Logged (List (List α))} {rows : List (List α)}
  {array : StoredArray α}

/-- Every store in memory is usable, and refuses no key. -/
theorem MemoryStore.usable (store : MemoryStore α) : Usable (fun _ ↦ none) store :=
  ⟨trivial, fun _ ↦ rfl⟩

/-- In memory what is computed is returned and stored, and all else in the store stays. -/
theorem run_computeRows (hsteady : Steady compute) (hrows : compute.result = .ok rows)
    (harray : StoredArray.ofRows rows = .ok array) (key : String)
    (s : Session (MemoryStore α)) :
    ∃ after, computeRows key compute s =
        (.ok rows, { (Job.ofLogged compute s).2 with cache := after }) ∧
      ∀ other, ResultCache.load after other =
        if key = other then .ok (some array) else ResultCache.load s.cache other := by
  obtain ⟨after, hrun, -, hafter⟩ :=
    s.cache.usable.run_computeRows trivial rfl hsteady hrows harray trivial
  exact ⟨after, hrun, fun other ↦ hafter other trivial⟩

/-- Computed rows that can be packed are returned, and the store has them afterwards. -/
theorem computeRows_eq_ok (hsteady : Steady compute) (hrows : compute.result = .ok rows)
    (harray : StoredArray.ofRows rows = .ok array) (key : String)
    (s : Session (MemoryStore α)) :
    (computeRows key compute s).1 = .ok rows ∧
      ResultCache.load (computeRows key compute s).2.cache key = .ok (some array) := by
  obtain ⟨after, hrun, hafter⟩ := run_computeRows hsteady hrows harray key s
  rw [hrun]
  exact ⟨rfl, (hafter key).trans (if_pos rfl)⟩

end

/-! ## Faithful stores -/

variable {σ α : Type} [ResultCache σ α] [Scalar α]

/-- The context with the instruction to compute again what is stored. -/
def TaskContext.refreshed (ctx : TaskContext α) : TaskContext α := { ctx with refresh := true }

/-- What the context stores can be kept: its keys and the arrays of its tables are of the kinds that
the store is for. -/
structure TaskContext.Keepable (plain : String → Prop) (kept : StoredArray α → Prop)
    (ctx : TaskContext α) : Prop where
  plain_key (quantity : Quantity) (density : ℕ) : plain (ctx.key quantity density)
  kept_array {quantity : Quantity} {density : ℕ} {compute : Logged (List (List α))}
    (hstores : ctx.Stores quantity density compute) {rows : List (List α)}
    (hrows : compute.result = .ok rows) {array : StoredArray α}
    (harray : StoredArray.ofRows rows = .ok array) : kept array

/-- A store in memory keeps whatever a context asks it to. -/
theorem TaskContext.keepable_memory (ctx : TaskContext α) :
    ctx.Keepable (fun _ ↦ True) fun _ ↦ True :=
  ⟨fun _ _ ↦ trivial, fun _ _ _ _ _ ↦ trivial⟩

variable {plain : String → Prop} {kept : StoredArray α → Prop}

/-- Every array in the store was computed and stored in one of the contexts that are there for its
quantity. -/
def Faithful [LawfulCache σ plain kept] (V : Quantity → TaskContext α → Prop) (store : σ) : Prop :=
  ∀ key array, plain key → ResultCache.load store key = .ok (some array) →
    ∃ ctx quantity density compute rows, V quantity ctx ∧ key = ctx.key quantity density ∧
      ctx.Stores quantity density compute ∧ compute.result = .ok rows ∧
      StoredArray.ofRows rows = .ok array

variable [LawfulCache σ plain kept]

/-- A faithful store that can be used. -/
structure Trusted (V : Quantity → TaskContext α → Prop)
    (refused : String → Option Failure) (store : σ) : Prop where
  usable : Usable refused store
  faithful : Faithful V store

/-- The context is there for the quantity, and so are, under the name and the angle of its model,
only contexts that are alike. Its Raman amplitudes have a key that is not that of another
request. -/
structure Coherent (V : Quantity → TaskContext α → Prop) (quantity : Quantity)
    (ctx : TaskContext α) : Prop where
  mem : V quantity ctx
  unambiguous : quantity = .raman → ctx.params.Unambiguous
  alike : ∀ other, V quantity other → other.bands.name = ctx.bands.name →
    Number.fixed 4 other.bands.twistAngle = Number.fixed 4 ctx.bands.twistAngle →
    other.Alike quantity ctx

variable {V : Quantity → TaskContext α → Prop} {refused : String → Option Failure}
  {ctx : TaskContext α} {quantity : Quantity} {density : ℕ} {compute : Logged (List (List α))}

/-- Sessions that are compared: both stores can be used, and the first one is faithful. -/
def FirstTrusted (V : Quantity → TaskContext α → Prop) (refused : String → Option Failure)
    (s s' : Session σ) : Prop :=
  Trusted V refused s.cache ∧ Usable refused s'.cache

/-- A computation that does not need the store leaves the stores as they are. -/
theorem Steady.agree_trusted {β : Type} {work : Logged β} (h : Steady work) :
    Agree (S := Session σ) (FirstTrusted V refused) (Job.ofLogged work) (Job.ofLogged work) :=
  h.agree_job (R := fun store store' ↦ Trusted V refused store ∧ Usable refused store')

/-- A store stays faithful if a context stores what it has computed under its key. -/
theorem Faithful.save {store after : σ} (h : Faithful V store) (hctx : V quantity ctx)
    (hstores : ctx.Stores quantity density compute) {rows : List (List α)}
    (hrows : compute.result = .ok rows) {array : StoredArray α}
    (harray : StoredArray.ofRows rows = .ok array)
    (hafter : ∀ other, plain other → ResultCache.load after other =
      if ctx.key quantity density = other then .ok (some array)
      else ResultCache.load store other) : Faithful V after := by
  intro key other hplain hother
  rw [hafter key hplain] at hother
  split at hother
  next hkey =>
    cases hother
    exact ⟨ctx, quantity, density, compute, rows, hctx, hkey.symm, hstores, hrows, harray⟩
  next => exact h key other hplain hother

/-- Computing and storing keeps the store faithful, and its result does not depend on the store. -/
theorem agree_computeRows (hkeep : ctx.Keepable plain kept) (hctx : V quantity ctx)
    (hstores : ctx.Stores quantity density compute) :
    Agree (S := Session σ) (FirstTrusted V refused) (computeRows (ctx.key quantity density) compute)
      (computeRows (ctx.key quantity density) compute) := by
  refine Agree.bind hstores.steady.agree_trusted fun rows ⟨s, hrows⟩ ↦ ?_
  have hresult : compute.result = .ok rows := (hstores.steady.result_eq s.log).symm.trans hrows
  refine Agree.bind (agree_outcome _) fun array ⟨_, harray⟩ ↦ ?_
  refine Agree.bind ?_ fun _ _ ↦ agree_pure _
  rintro s s' ⟨⟨hs, hfaithful⟩, hs'⟩
  have hkey := hkeep.plain_key quantity density
  have hkept := hkeep.kept_array hstores hresult harray
  cases hrefused : refused (ctx.key quantity density) with
  | some cause =>
      rw [hs.run_save_of_refused hkey hrefused, hs'.run_save_of_refused hkey hrefused]
      exact ⟨rfl, ⟨hs, hfaithful⟩, hs'⟩
  | none =>
      obtain ⟨after, hsave, hafter, hload⟩ := hs.run_save hkey hkept hrefused
      obtain ⟨after', hsave', hafter', -⟩ := hs'.run_save hkey hkept hrefused
      rw [hsave, hsave']
      exact ⟨rfl, ⟨hafter, hfaithful.save hctx hstores hresult harray hload⟩, hafter'⟩

/-- An array under the key of a context that asks for it, unless it is a spectrum for other photon
energies, holds the rows that the context computes. -/
theorem Faithful.hit [KeyLaws α] {store : σ} (h : Faithful V store)
    (hkeep : ctx.Keepable plain kept) (hctx : Coherent V quantity ctx)
    (hstores : ctx.Stores quantity density compute) {array : StoredArray α}
    (hhit : ResultCache.load store (ctx.key quantity density) = .ok (some array)) :
    ∃ rows, array.toRows = .ok rows ∧ StoredArray.ofRows rows = .ok array ∧
      ((quantity.IsSpectral → ∃ width, answersPhotons ctx.photons width rows = true) →
        compute.result = .ok rows) := by
  obtain ⟨ctx', quantity', density', compute', rows, hctx', hkey, hstores', hrows, harray⟩ :=
    h _ _ (hkeep.plain_key quantity density) hhit
  have hfits := hstores'.fits #[] rows hrows
  refine ⟨rows, StoredArray.toRows_ofRows harray hfits, harray, fun hanswers ↦ ?_⟩
  -- The key gives back all that the rows depend on, but for the photon energies, which stand in the
  -- rows, and the inner bands of a Raman sum without bands.
  obtain ⟨hname, hangle, rfl, rfl, hdetail⟩ := TaskContext.key_inj hkey
  have hphotons : quantity.IsSpectral → ctx'.photons = ctx.photons := by
    intro hspectral
    obtain ⟨width, hanswers⟩ := hanswers hspectral
    exact ((hstores'.isSpectrum hspectral #[] rows hrows).photons_eq hanswers).symm
  have halike := hctx.alike ctx' hctx' hname.symm hangle.symm
  have hinner : quantity = .raman → ctx'.half = 0 → ctx'.raman.inner = ctx.raman.inner := by
    rintro rfl
    exact TaskContext.inner_eq_of_unambiguous (hstores'.unambiguous #[] rows hrows)
      (hctx.unambiguous rfl) hdetail.symm
  exact hstores'.reproduces hstores halike hdetail.symm hphotons hinner #[] #[] rows hrows

/-- Where the one store holds the rows that a context computes, computing them gives them on the
other one too, since a key under which something is stored is not refused. -/
theorem computeRows_of_hit (hkeep : ctx.Keepable plain kept)
    (hstores : ctx.Stores quantity density compute) {s s' : Session σ}
    (hs : Usable refused s.cache) (hs' : Usable refused s'.cache) {rows : List (List α)}
    {array : StoredArray α}
    (hload : ResultCache.load s.cache (ctx.key quantity density) = .ok (some array))
    (hrows : compute.result = .ok rows) (harray : StoredArray.ofRows rows = .ok array) :
    (computeRows (ctx.key quantity density) compute s').1 = .ok rows ∧
      Usable refused (computeRows (ctx.key quantity density) compute s').2.cache := by
  have hkey := hkeep.plain_key quantity density
  obtain ⟨after, hrun, hafter, -⟩ := hs'.run_computeRows hkey (hs.refused_eq_none hkey hload)
    hstores.steady hrows harray (hkeep.kept_array hstores hrows harray)
  rw [hrun]
  exact ⟨rfl, hafter⟩

/-- A table that is not a spectrum is the same whether it comes from the store or not. -/
theorem agree_cachedRows [KeyLaws α] (hkeep : ctx.Keepable plain kept)
    (hctx : Coherent V quantity ctx) (hstores : ctx.Stores quantity density compute)
    (hquantity : ¬ quantity.IsSpectral) {key : String} (hkey : key = ctx.key quantity density)
    (refresh : Bool) :
    Agree (S := Session σ) (FirstTrusted V refused) (cachedRows key refresh compute)
      (cachedRows key true compute) := by
  subst hkey
  intro s s' hs
  have hcompute := agree_computeRows hkeep hctx.mem hstores s s' hs
  rw [cachedRows.eq_def _ true, if_pos rfl]
  obtain ⟨cause, hload, -⟩ | ⟨array, log, hload, hrun⟩ | hrun :=
    cachedRows_cases (ctx.key quantity density) refresh compute s
  · obtain ⟨found, hfound⟩ := hs.1.usable.load_eq_ok (hkeep.plain_key quantity density)
    cases hload.symm.trans hfound
  · obtain ⟨rows, hrows, harray, hresult⟩ := hs.1.faithful.hit hkeep hctx hstores hload
    have hcomputed := hresult fun hspectral ↦ absurd hspectral hquantity
    obtain ⟨hsecond, hafter⟩ :=
      computeRows_of_hit hkeep hstores hs.1.usable hs.2 hload hcomputed harray
    rw [hrun, hsecond]
    exact ⟨hrows, hs.1, hafter⟩
  · rw [hrun]
    exact hcompute

/-- A spectrum is the same whether it comes from the store or not. -/
theorem agree_spectrumRows [KeyLaws α] (hkeep : ctx.Keepable plain kept)
    (hctx : Coherent V quantity ctx) (hstores : ctx.Stores quantity density compute) (width : ℕ)
    {key : String} (hkey : key = ctx.key quantity density) :
    Agree (S := Session σ) (FirstTrusted V refused) (Task.spectrumRows ctx key width compute)
      (Task.spectrumRows ctx.refreshed key width compute) := by
  subst hkey
  intro s s' hs
  have hcompute := agree_computeRows hkeep hctx.mem hstores s s' hs
  rw [Task.spectrumRows.eq_def ctx.refreshed, if_pos (show ctx.refreshed.refresh = true from rfl)]
  obtain ⟨cause, hload, -⟩ | ⟨array, log, hload, hrun, hanswers⟩ | hrun :=
    Task.spectrumRows_cases ctx (ctx.key quantity density) width compute s
  · obtain ⟨found, hfound⟩ := hs.1.usable.load_eq_ok (hkeep.plain_key quantity density)
    cases hload.symm.trans hfound
  · obtain ⟨rows, hrows, harray, hresult⟩ := hs.1.faithful.hit hkeep hctx hstores hload
    have hcomputed := hresult fun _ ↦ ⟨width, hanswers rows hrows⟩
    obtain ⟨hsecond, hafter⟩ :=
      computeRows_of_hit hkeep hstores hs.1.usable hs.2 hload hcomputed harray
    rw [hrun, hsecond]
    exact ⟨hrows, hs.1, hafter⟩
  · rw [hrun]
    exact hcompute

/-! ## Tasks -/

/-- What a task keeps in the store. -/
def Task.quantity? : Task → Option Quantity
  | .bands => some .bands
  | .dos | .jdos | .energyDifference => some .energies
  | .absorption => some .absorption
  | .conductivity => some .conductivity
  | .raman => some .raman
  | .chern | .fermiVelocity | .patch => none

/-- Benches that are compared: their sessions are related, and they have the same report. -/
def SameReport (R : Session σ → Session σ → Prop) (b b' : Bench σ α) : Prop :=
  R b.session b'.session ∧ b.report = b'.report

section

variable {R : Session σ → Session σ → Prop} {refresh : Bool}
  (hlogged : ∀ {β : Type} {work : Logged β}, Steady work →
    Agree R (Job.ofLogged work) (Job.ofLogged work))

include hlogged

omit [ResultCache σ α] [Scalar α] in
/-- Steady work runs alike with either store. -/
theorem Steady.agree_run {β : Type} {work : Logged β} (h : Steady work) :
    Agree (S := Bench σ α) (SameReport R) (Run.ofJob (Job.ofLogged work))
      (Run.ofJob (Job.ofLogged work)) :=
  (hlogged h).ofJob

omit [ResultCache σ α] in
/-- The Chern number does not depend on the store. -/
theorem agree_runChern : Agree (S := Bench σ α) (SameReport R) (Task.runChern ctx)
    (Task.runChern { ctx with refresh }) := by
  refine Agree.bind (Steady.agree_run hlogged ?_) fun _ _ ↦ Agree.bind (agree_amend _) fun _ _ ↦
    Agree.bind (Steady.agree_run hlogged ?_) fun _ _ ↦ agree_amend _
  all_goals exact Steady.bind (agree_outcome _) fun _ ↦ Steady.bind (steady_say _) fun _ ↦
    Steady.bind (steady_say _) fun _ ↦ agree_outcome _

omit [ResultCache σ α] in
/-- The phases over a patch do not depend on the store. -/
theorem agree_runPatch : Agree (S := Bench σ α) (SameReport R) (Task.runPatch ctx)
    (Task.runPatch { ctx with refresh }) :=
  Agree.bind (agree_outcome _) fun _ _ ↦ Agree.bind (Steady.agree_run hlogged
    (Steady.bind (steady_say _) fun _ ↦ agree_outcome _)) fun _ _ ↦ agree_amend _

variable {task : Task} (hrows : ∀ quantity density compute key, task.quantity? = some quantity →
  ctx.Stores quantity density compute → key = ctx.key quantity density →
    Agree R (ctx.storedRows quantity key compute)
      (TaskContext.storedRows { ctx with refresh } quantity key compute))

include hrows

/-- Whether stored rows are used or computed again shows in a task only through these rows. -/
theorem Task.agree_body :
    Agree (S := Bench σ α) (SameReport R) (task.body ctx) (task.body { ctx with refresh }) := by
  cases task with
  | bands =>
      refine Agree.bind (agree_outcome _) fun path ⟨_, hpath⟩ ↦ ?_
      exact Agree.bind (hrows .bands _ _ _ rfl (.bands hpath rfl) (ctx.windowKey_bands _)).ofJob
        fun _ _ ↦ Agree.bind (agree_outcome _) fun _ _ ↦ agree_amend _
  | dos | jdos | energyDifference =>
      exact Agree.bind (hrows .energies _ _ _ rfl (.energies rfl) (ctx.windowKey_energies _)).ofJob
        fun _ _ ↦ Agree.bind (agree_outcome _) fun _ _ ↦ agree_amend _
  | absorption =>
      exact Agree.bind (hrows .absorption _ _ _ rfl (.absorption rfl) ctx.absorptionKey_eq).ofJob
        fun _ _ ↦ Agree.bind (agree_outcome _) fun _ _ ↦ Agree.bind (agree_outcome _) fun _ _ ↦
          agree_amend _
  | conductivity =>
      exact Agree.bind
        (hrows .conductivity _ _ _ rfl (.conductivity rfl) ctx.conductivityKey_eq).ofJob
        fun _ _ ↦ Agree.bind (agree_outcome _) fun _ _ ↦ Agree.bind (agree_outcome _) fun _ _ ↦
          agree_amend _
  | raman =>
      refine Agree.bind (agree_outcome _) fun path ⟨_, hpath⟩ ↦ ?_
      exact Agree.bind (hrows .raman _ _ _ rfl (.raman hpath rfl) (ctx.ramanKey_eq _)).ofJob
        fun _ _ ↦ Agree.bind (agree_outcome _) fun _ _ ↦ Agree.bind (agree_outcome _) fun _ _ ↦
          agree_amend _
  | chern => exact agree_runChern hlogged
  | fermiVelocity => exact Agree.bind (agree_outcome _) fun _ _ ↦ agree_amend _
  | patch => exact agree_runPatch hlogged

/-- A task runs alike with either store when the rows it stores are got alike. -/
theorem Task.agree_of_storedRows :
    Agree (S := Bench σ α) (SameReport R) (task.run ctx) (task.run { ctx with refresh }) :=
  Agree.bind ((steady_say _).agree_run hlogged) fun _ _ ↦
    Agree.bind ((steady_say _).agree_run hlogged) fun _ _ ↦
      Agree.bind ((steady_say _).agree_run hlogged) fun _ _ ↦ task.agree_body hlogged hrows

end

/-- A task on a faithful store has the outcome and the report that it has when it computes
everything again, and it keeps the store faithful. -/
theorem Task.agree_run [KeyLaws α] {task : Task} (hkeep : ctx.Keepable plain kept)
    (hctx : ∀ quantity, task.quantity? = some quantity → Coherent V quantity ctx) :
    Agree (S := Bench σ α) (SameReport (FirstTrusted V refused)) (task.run ctx)
      (task.run ctx.refreshed) := by
  refine Task.agree_of_storedRows Steady.agree_trusted ?_
  intro quantity density compute key hquantity hstores hkey
  have hcoherent := hctx quantity hquantity
  cases quantity with
  | absorption => exact agree_spectrumRows hkeep hcoherent hstores 2 hkey
  | conductivity => exact agree_spectrumRows hkeep hcoherent hstores 3 hkey
  | energies | bands | raman => exact agree_cachedRows hkeep hcoherent hstores (by decide) hkey _

/-! ## Stores stay faithful -/

/-- Sessions that are compared: they are the same, and their store is faithful. -/
def SelfTrusted (V : Quantity → TaskContext α → Prop) (refused : String → Option Failure)
    (s s' : Session σ) : Prop :=
  s = s' ∧ Trusted V refused s.cache

/-- A task keeps a store faithful. -/
theorem Task.trusted_run {task : Task} (hkeep : ctx.Keepable plain kept)
    (hctx : ∀ quantity, task.quantity? = some quantity → V quantity ctx) {bench : Bench σ α}
    (h : Trusted V refused bench.session.cache) :
    Trusted V refused (task.run ctx bench).2.session.cache := by
  have hagree : Agree (S := Bench σ α) (SameReport (SelfTrusted V refused)) (task.run ctx)
      (task.run { ctx with refresh := ctx.refresh }) := by
    refine Task.agree_of_storedRows (fun _ ↦ ?_) ?_
    · rintro s _ ⟨rfl, hs⟩
      exact ⟨rfl, rfl, hs⟩
    · rintro quantity density compute key hquantity hstores rfl s _ ⟨rfl, hs⟩
      refine ⟨rfl, rfl, ?_⟩
      have hcompute :
          Trusted V refused (computeRows (ctx.key quantity density) compute s).2.cache :=
        (agree_computeRows hkeep (hctx quantity hquantity) hstores s s ⟨hs, hs.usable⟩).2.1
      rcases ctx.storedRows_cases quantity (ctx.key quantity density) compute s with
        ⟨_, -, hstopped⟩ | ⟨_, _, -, hfound⟩ | hcomputed
      · rw [hstopped]
        exact hs
      · rw [hfound]
        exact hs
      · rw [hcomputed]
        exact hcompute
  exact (hagree bench bench ⟨⟨rfl, h⟩, rfl⟩).2.1.2

/-! ## Tasks one after the other -/

/-- The bench after tasks that are run one after the other, each in a context of its own, whatever
becomes of those before. -/
def benchAfter (calls : List (Task × TaskContext α)) (bench : Bench σ α) : Bench σ α :=
  calls.foldl (fun bench call ↦ (call.1.run call.2 bench).2) bench

/-- Tasks one after the other keep a store faithful. -/
theorem trusted_benchAfter {calls : List (Task × TaskContext α)}
    (hkeep : ∀ call ∈ calls, call.2.Keepable plain kept)
    (hcalls : ∀ call ∈ calls, ∀ quantity, call.1.quantity? = some quantity → V quantity call.2)
    {bench : Bench σ α} (h : Trusted V refused bench.session.cache) :
    Trusted V refused (benchAfter calls bench).session.cache := by
  induction calls generalizing bench with
  | nil => exact h
  | cons call calls ih =>
      rw [List.forall_mem_cons] at hkeep hcalls
      exact ih hkeep.2 hcalls.2 (Task.trusted_run hkeep.1 hcalls.1 h)

omit [LawfulCache σ plain kept] in
/-- The empty store is faithful to any contexts. -/
theorem faithful_empty : Faithful V (MemoryStore.empty : MemoryStore α) := by
  intro key array _ h
  rw [MemoryStore.load_empty] at h
  cases h

/-- The contexts of one model. -/
def OfModel (model : TwistedModel α) (solve : Solver α) (_ : Quantity) (ctx : TaskContext α) :
    Prop :=
  (ctx.model = model ∧ ctx.solve = solve) ∧ ctx.params.Unambiguous

/-- The contexts of one model are coherent. -/
theorem coherent_ofModel {model : TwistedModel α} {solve : Solver α} {quantity : Quantity}
    {ctx : TaskContext α} (h : OfModel model solve quantity ctx) :
    Coherent (OfModel model solve) quantity ctx := by
  refine ⟨h, fun _ ↦ h.2, ?_⟩
  rintro other ⟨⟨hother, hsolve'⟩, -⟩ - -
  obtain ⟨⟨hmodel, hsolve⟩, -⟩ := h
  have hsame := hother.trans hmodel.symm
  have hbands : other.bands = ctx.bands := congrArg TwistedModel.toBandModel hsame
  exact ⟨by rw [← hbands], fun _ ↦ by rw [hbands], congrArg TwistedModel.defaultPath hsame,
    congrArg TwistedModel.ramanPath hsame, hsolve'.trans hsolve.symm⟩

/-- The number of inner bands is left out or between one and the number of bands on each side. -/
def ObservableParams.InnerInRange (params : ObservableParams α) : Prop :=
  ∀ inner, params.ramanInnerTransitions = some inner → 1 ≤ inner ∧ inner ≤ params.numHalf.getD 2

omit [Scalar α] in
/-- An inner count in range makes the Raman keys unambiguous. -/
theorem ObservableParams.InnerInRange.unambiguous {params : ObservableParams α}
    (h : params.InnerInRange) : params.Unambiguous :=
  fun ⟨_, hinner⟩ ↦ absurd (h 0 hinner).1 (by decide)

/-- Tasks of one model, each with a request of its own, one after the other on a store that is empty
at first: each has the outcome and the report that it has when it computes everything again on an
empty store. -/
theorem report_eq_refreshed (model : TwistedModel Float) (evaluator : Evaluator)
    (solve : Solver Float) (sort : Sorter Float) (earlier : List (Task × ObservableParams Float))
    (task : Task) (params : ObservableParams Float)
    (hearlier : ∀ call ∈ earlier, call.2.InnerInRange) (hparams : params.InnerInRange)
    (log log' : Log) (report : Report Float) :
    let calls := earlier.map fun call ↦
      (call.1, (⟨model, evaluator, solve, sort, call.2, false⟩ : TaskContext Float))
    let bench := benchAfter calls ⟨⟨MemoryStore.empty, log⟩, report⟩
    let stored := task.run ⟨model, evaluator, solve, sort, params, false⟩ bench
    let fresh := task.run ⟨model, evaluator, solve, sort, params, true⟩
      ⟨⟨MemoryStore.empty, log'⟩, bench.report⟩
    stored.1 = fresh.1 ∧ stored.2.report = fresh.2.report := by
  intro calls bench stored fresh
  have hcalls : ∀ call ∈ calls, ∀ quantity, call.1.quantity? = some quantity →
      OfModel model solve quantity call.2 := by
    intro call hcall quantity _
    obtain ⟨request, hrequest, rfl⟩ := List.mem_map.mp hcall
    exact ⟨⟨rfl, rfl⟩, (hearlier request hrequest).unambiguous⟩
  have hbench : Trusted (OfModel model solve) (fun _ ↦ none) bench.session.cache :=
    trusted_benchAfter (fun call _ ↦ call.2.keepable_memory) hcalls
      ⟨MemoryStore.usable _, faithful_empty⟩
  have hagree : Agree (S := Bench (MemoryStore Float) Float)
      (SameReport (FirstTrusted (OfModel model solve) fun _ ↦ none))
      (task.run ⟨model, evaluator, solve, sort, params, false⟩)
      (task.run ⟨model, evaluator, solve, sort, params, true⟩) :=
    Task.agree_run (TaskContext.keepable_memory _)
      fun _ _ ↦ coherent_ofModel ⟨⟨rfl, rfl⟩, hparams.unambiguous⟩
  obtain ⟨houtcome, -, hreport⟩ := hagree bench ⟨⟨MemoryStore.empty, log'⟩, bench.report⟩
    ⟨⟨hbench, MemoryStore.usable _⟩, rfl⟩
  exact ⟨houtcome, hreport⟩

/-- Raman amplitudes for all bands are those with as many inner bands, which were stored before. -/
theorem report_eq_refreshed_raman :
    let model : TwistedModel Float := .continuum (.ofParams .default)
    let all : ObservableParams Float := { ObservableParams.empty with numHalf := some 1 }
    let inner : ObservableParams Float := { all with ramanInnerTransitions := some 1 }
    let solve : Solver Float := fun h ↦ some ((List.range h.nrows).map fun i ↦ ⟨i.toFloat, #[]⟩)
    let start : Bench (MemoryStore Float) Float :=
      ⟨⟨.empty, #[]⟩, Report.create model.toBandModel⟩
    let bench := benchAfter [(.raman, ⟨model, ⟨2⟩, solve, .insertion, inner, false⟩)] start
    let stored := Task.raman.run ⟨model, ⟨2⟩, solve, .insertion, all, false⟩ bench
    let fresh := Task.raman.run ⟨model, ⟨2⟩, solve, .insertion, all, true⟩
      { start with report := bench.report }
    inner.InnerInRange ∧ all.InnerInRange ∧ stored.1 = fresh.1 ∧
      stored.2.report = fresh.2.report := by
  intro model all inner solve start bench stored fresh
  have hinner : inner.InnerInRange := by
    rintro _ ⟨⟩
    exact ⟨le_rfl, le_rfl⟩
  have hall : all.InnerInRange := nofun
  exact ⟨hinner, hall, report_eq_refreshed model ⟨2⟩ solve .insertion [(.raman, inner)] .raman all
    (by simpa using hinner) hall #[] #[] start.report⟩

end Moire
