import Mathlib.Tactic
import Moire.Proofs.CacheTransparency

/-!
# Tables are stored whole or not at all

A call of `cachedRows` either takes the table under its key, and then neither computes nor changes
the store, or computes once. What was computed is stored only if it can be packed, so a call that
stops leaves the store as it was (`computeRows_of_error`, `computeRows_of_unpacked`), and the only
other change is a new array under the key, `cache_cachedRows`. From this step follows what a run of
calls on several keys keeps, whether they stop or not: an array that none of them refreshes is
still there, `RowsCall.get?_runAll`. `cachedRows_atomic` puts this together with the way back from
an array to its rows. An array of very many empty rows has no numbers and can be stored, but it
cannot be unpacked, `cachedRows_manyEmptyRows`.
-/

namespace Moire

/-! ## One call -/

section

variable {σ α : Type} [ResultCache σ α] {key : String} {compute : Logged (List (List α))}
  {s : Session σ}

/-- Rows that are computed and returned have been saved. -/
theorem computeRows_ok {rows : List (List α)} (h : (computeRows key compute s).1 = .ok rows) :
    (compute s.log).1 = .ok rows ∧ ∃ array, StoredArray.ofRows rows = .ok array ∧
      ResultCache.save s.cache key array = .ok (computeRows key compute s).2.cache := by
  rcases hcompute : (compute s.log).1 with cause | computed
  · rw [computeRows_of_error hcompute] at h
    cases h
  rcases hpack : StoredArray.ofRows computed with cause | array
  · rw [computeRows_of_unpacked hcompute hpack] at h
    cases h
  rw [computeRows_of_packed hcompute hpack] at h ⊢
  rcases hsave : ResultCache.save s.cache key array with cause | after
  · have hjob : (Job.save key array { s with log := (compute s.log).2 }).1 = .error cause := by
      rw [Job.save, hsave]
    rw [run_bind_error hjob] at h
    cases h
  · have hjob : Job.save key array { s with log := (compute s.log).2 } =
        (.ok (), ⟨after, (compute s.log).2⟩) := by
      rw [Job.save, hsave]
    rw [run_bind_ok (congrArg Prod.fst hjob), hjob] at h ⊢
    cases h
    exact ⟨rfl, array, hpack, hsave⟩

end

variable {α : Type} {key : String} {compute : Logged (List (List α))}
  {s : Session (MemoryStore α)}

/-- In memory an array is always saved. -/
theorem computeRows_eq_insert {rows : List (List α)} (h : (compute s.log).1 = .ok rows)
    {array : StoredArray α} (hpack : StoredArray.ofRows rows = .ok array) :
    computeRows key compute s = (.ok rows, ⟨s.cache.insert key array, (compute s.log).2⟩) := by
  rw [computeRows_of_packed h hpack]
  exact run_bind_ok rfl _

/-- Computing changes the store at most by a new array under the key. -/
theorem cache_computeRows (key : String) (compute : Logged (List (List α)))
    (s : Session (MemoryStore α)) :
    (computeRows key compute s).2.cache = s.cache ∨
      ∃ array, (computeRows key compute s).2.cache = s.cache.insert key array := by
  rcases hcompute : (compute s.log).1 with cause | rows
  · rw [computeRows_of_error hcompute]
    exact Or.inl rfl
  · rcases hpack : StoredArray.ofRows rows with cause | array
    · rw [computeRows_of_unpacked hcompute hpack]
      exact Or.inl rfl
    · rw [computeRows_eq_insert hcompute hpack]
      exact Or.inr ⟨array, rfl⟩

/-- The key has no array, or it is to be refreshed. -/
def Session.Computes (s : Session (MemoryStore α)) (key : String) (refresh : Bool) : Prop :=
  refresh = true ∨ s.cache.get? key = none

/-- Where nothing may be taken from the store, cached rows are computed rows. -/
theorem cachedRows_of_computes {refresh : Bool} (h : s.Computes key refresh) :
    cachedRows key refresh compute s = computeRows key compute s := by
  obtain rfl | hnone := h
  · rfl
  · exact cachedRows_miss (congrArg Except.ok hnone) refresh compute s.log

/-- A call changes the store at most by a new array under its key, and only if there was none or it
was to be refreshed. -/
theorem cache_cachedRows (key : String) (refresh : Bool) (compute : Logged (List (List α)))
    (s : Session (MemoryStore α)) :
    (cachedRows key refresh compute s).2.cache = s.cache ∨
      s.Computes key refresh ∧
        ∃ array, (cachedRows key refresh compute s).2.cache = s.cache.insert key array := by
  by_cases hcomputes : s.Computes key refresh
  · rw [cachedRows_of_computes hcomputes]
    exact (cache_computeRows key compute s).imp_right fun hinsert ↦ ⟨hcomputes, hinsert⟩
  · rw [Session.Computes, not_or, Bool.not_eq_true] at hcomputes
    obtain ⟨rfl, hfound⟩ := hcomputes
    obtain ⟨array, harray⟩ := Option.ne_none_iff_exists'.mp hfound
    rw [cachedRows_found (congrArg Except.ok harray)]
    exact Or.inl rfl

/-! ## Calls one after the other -/

/-- A call of `cachedRows`. -/
structure RowsCall (α : Type) where
  key : String
  refresh : Bool
  compute : Logged (List (List α))

namespace RowsCall

/-- What the call returns, and the session after it. -/
def run (call : RowsCall α) (s : Session (MemoryStore α)) :
    Outcome (List (List α)) × Session (MemoryStore α) :=
  cachedRows call.key call.refresh call.compute s

/-- The session after some calls. A call that stops does not keep the next one from being made. -/
def runAll (calls : List (RowsCall α)) (s : Session (MemoryStore α)) : Session (MemoryStore α) :=
  calls.foldl (fun after call ↦ (call.run after).2) s

/-- The call is one on another key, or it takes what is stored under this one. -/
def Spares (call : RowsCall α) (key : String) : Prop :=
  call.key = key → call.refresh = false

/-- A call that spares a key leaves the array under it as it was. -/
theorem Spares.get?_run {call : RowsCall α} (h : call.Spares key) {array : StoredArray α}
    (hfound : s.cache.get? key = some array) : (call.run s).2.cache.get? key = some array := by
  obtain hsame | ⟨hcomputes, new, hinsert⟩ :=
    cache_cachedRows call.key call.refresh call.compute s
  · rw [run, hsame, hfound]
  · have hother : call.key ≠ key := by
      intro hkey
      obtain hrefresh | hnone := hcomputes
      · simp [h hkey] at hrefresh
      · simp [hkey, hfound] at hnone
    rw [run, hinsert, MemoryStore.get?_insert, if_neg hother, hfound]

/-- An array stays under its key as long as no call refreshes it. -/
theorem get?_runAll {calls : List (RowsCall α)} (hcalls : ∀ call ∈ calls, call.Spares key)
    {array : StoredArray α} (hfound : s.cache.get? key = some array) :
    (runAll calls s).cache.get? key = some array := by
  induction calls generalizing s with
  | nil => exact hfound
  | cons call calls ih =>
      rw [List.forall_mem_cons] at hcalls
      exact ih hcalls.2 (hcalls.1.get?_run hfound)

/-- A later call takes the array, whatever it would have computed. -/
theorem cachedRows_runAll {calls : List (RowsCall α)} (hcalls : ∀ call ∈ calls, call.Spares key)
    {array : StoredArray α} (hfound : s.cache.get? key = some array)
    (compute : Logged (List (List α))) :
    cachedRows key false compute (runAll calls s) = (array.toRows,
      { runAll calls s with log := (runAll calls s).log.tell s!"Loaded {key} from cache" }) :=
  cachedRows_found (congrArg Except.ok (get?_runAll hcalls hfound)) compute

end RowsCall

/-! ## What is found -/

namespace StoredArray

/-- The shape has two entries and does not stand for more empty rows than there is memory for. -/
def Unpacks (array : StoredArray α) : Prop :=
  ∃ count width, array.shape = [count, width] ∧ (0 < width ∨ count * rowSize < memoryLimit)

/-- An array is unpacked, or its rank is wrong, or it stands for too many empty rows. -/
theorem toRows_cases (array : StoredArray α) :
    (array.Unpacks ∧ ∃ rows, array.toRows = .ok rows) ∨
      (array.shape.length ≠ 2 ∧ array.toRows =
        fail (.dimensionMismatch "cached array rank" 2 array.shape.length)) ∨
      ∃ count, array.shape = [count, 0] ∧ memoryLimit ≤ count * rowSize ∧
        array.toRows = breakDown .capacityOverflow := by
  obtain ⟨shape, data⟩ := array
  by_cases hrank : shape.length = 2
  · obtain ⟨count, width, rfl⟩ := List.length_eq_two.mp hrank
    obtain rfl | hpos := Nat.eq_zero_or_pos width
    · obtain hfew | hmany := lt_or_ge (count * rowSize) memoryLimit
      · exact Or.inl ⟨⟨count, 0, rfl, Or.inr hfew⟩, _, toRows_of_empty hfew data⟩
      · exact Or.inr (Or.inr ⟨count, rfl, hmany, toRows_of_many hmany data⟩)
    · exact Or.inl ⟨⟨count, width, rfl, Or.inl hpos⟩, _, toRows_of_pos hpos count data⟩
  · refine Or.inr (Or.inl ⟨hrank, ?_⟩)
    unfold toRows
    grind

end StoredArray

/-- A call without refreshing takes the array under its key: it unpacks it, says so, and changes
nothing else, whatever it would have computed. All other calls compute once. If that fails, or if
the rows are not equally long, the call stops and the store is the one before. Otherwise it returns
the rows, and the store holds their array under the key and is unchanged elsewhere, so that after
any calls that do not refresh the key it is these rows that are found. -/
theorem cachedRows_atomic (s : Session (MemoryStore α)) (key : String) (refresh : Bool)
    (compute : Logged (List (List α))) :
    (refresh = false → ∀ array, s.cache.get? key = some array →
      cachedRows key refresh compute s =
        (array.toRows, { s with log := s.log.tell s!"Loaded {key} from cache" }) ∧
      ((array.Unpacks ∧ ∃ rows, array.toRows = .ok rows) ∨
        (array.shape.length ≠ 2 ∧ array.toRows =
          fail (.dimensionMismatch "cached array rank" 2 array.shape.length)) ∨
        ∃ count, array.shape = [count, 0] ∧ memoryLimit ≤ count * StoredArray.rowSize ∧
          array.toRows = breakDown .capacityOverflow)) ∧
    (refresh = true ∨ s.cache.get? key = none →
      (∀ cause, (compute s.log).1 = .error cause →
        cachedRows key refresh compute s = (.error cause, { s with log := (compute s.log).2 })) ∧
      ∀ rows, (compute s.log).1 = .ok rows →
        (¬ Rectangular rows → ∃ top row, FirstUnequal rows top row ∧
          cachedRows key refresh compute s =
            (fail (.dimensionMismatch "cached rows" top.length row.length),
              { s with log := (compute s.log).2 })) ∧
        (Rectangular rows → Counted rows → ∃ array after, StoredArray.ofRows rows = .ok array ∧
          cachedRows key refresh compute s = (.ok rows, ⟨after, (compute s.log).2⟩) ∧
          after.get? key = some array ∧
          (∀ other, other ≠ key → after.get? other = s.cache.get? other) ∧
          (Fits rows → ∀ (calls : List (RowsCall α)) (last : Session (MemoryStore α)),
            (∀ call ∈ calls, call.Spares key) →
            last = RowsCall.runAll calls ⟨after, (compute s.log).2⟩ →
            ∀ otherwise, cachedRows key false otherwise last =
              (.ok rows, { last with log := last.log.tell s!"Loaded {key} from cache" })))) := by
  refine ⟨fun hrefresh array harray ↦ ⟨?_, array.toRows_cases⟩, fun hcomputes ↦ ?_⟩
  · rw [hrefresh]
    exact cachedRows_found (congrArg Except.ok harray) compute
  · rw [cachedRows_of_computes hcomputes]
    refine ⟨fun cause hcause ↦ computeRows_of_error hcause, fun rows hrows ↦ ⟨fun hragged ↦ ?_,
      fun hrectangular hcounted ↦ ?_⟩⟩
    · obtain ⟨top, row, hunequal⟩ := exists_firstUnequal hragged
      exact ⟨top, row, hunequal,
        computeRows_of_unpacked hrows (StoredArray.ofRows_of_firstUnequal hunequal)⟩
    · have hpack := StoredArray.ofRows_eq_ok_iff.mpr ⟨hrectangular, hcounted, rfl⟩
      refine ⟨_, _, hpack, computeRows_eq_insert hrows hpack, ?_, fun other hother ↦ ?_,
        fun hfits calls last hcalls hlast otherwise ↦ ?_⟩
      · rw [MemoryStore.get?_insert, if_pos rfl]
      · rw [MemoryStore.get?_insert, if_neg hother.symm]
      · rw [hlast, RowsCall.cachedRows_runAll hcalls, StoredArray.toRows_ofRows hpack hfits]
        rw [MemoryStore.get?_insert, if_pos rfl]

/-- A table of two rows is computed into an empty store. A refused and a stored table under another
key later, and after a call that finds it, it is still there. -/
theorem cachedRows_atomic_pair :
    let rows : List (List ℤ) := [[1, 2], [3, 4]]
    let calls : List (RowsCall ℤ) :=
      [⟨"m", true, pure [[5], [6, 7]]⟩, ⟨"k", false, pure []⟩, ⟨"m", true, pure [[5], [6]]⟩]
    ∃ after, cachedRows "k" false (pure rows) ⟨MemoryStore.empty, #[]⟩ = (.ok rows, ⟨after, #[]⟩) ∧
      ∀ otherwise, (cachedRows "k" false otherwise (RowsCall.runAll calls ⟨after, #[]⟩)).1 =
        .ok rows := by
  intro rows calls
  have hnone : (MemoryStore.empty : MemoryStore ℤ).get? "k" = none :=
    Except.ok.inj (MemoryStore.load_empty "k")
  obtain ⟨-, hmiss⟩ := cachedRows_atomic ⟨MemoryStore.empty, #[]⟩ "k" false (pure rows)
  obtain ⟨array, after, -, hrun, -, -, hlater⟩ :=
    ((hmiss (Or.inr hnone)).2 rows rfl).2 (by simp [Rectangular, rows])
      (by simp [Counted, rows, countLimit])
  have hfits : Fits rows := Or.inl (by simp [rows])
  have hcalls : ∀ call ∈ calls, call.Spares "k" := by simp [calls, RowsCall.Spares]
  exact ⟨after, hrun, fun otherwise ↦ congrArg Prod.fst (hlater hfits calls _ hcalls rfl otherwise)⟩

/-- An array of very many empty rows is well formed, but a call that finds it returns neither its
rows nor that its rank is wrong. -/
theorem cachedRows_manyEmptyRows :
    let array : StoredArray ℤ := ⟨[1152921504606846976, 0], []⟩
    let result := (cachedRows "k" false (pure [[1]]) ⟨MemoryStore.empty.insert "k" array, #[]⟩).1
    StoredArray.create array.shape array.data = .ok array ∧
      result = breakDown .capacityOverflow ∧ (∀ rows, result ≠ .ok rows) ∧
      ∀ context expected found, result ≠ fail (.dimensionMismatch context expected found) := by
  intro array result
  have hfound : (MemoryStore.empty.insert "k" array).get? "k" = some array :=
    (MemoryStore.get?_insert _ _ _ _).trans (if_pos rfl)
  have hresult : result = breakDown .capacityOverflow := by
    simp only [result]
    rw [cachedRows_found (congrArg Except.ok hfound)]
    exact StoredArray.toRows_of_many (by decide) []
  refine ⟨StoredArray.create_eq_ok_iff.mpr (by simp [array, countLimit]), hresult, fun rows ↦ ?_,
    fun context expected found ↦ ?_⟩
  · simp [hresult, breakDown]
  · simp [hresult, breakDown, fail]

end Moire
