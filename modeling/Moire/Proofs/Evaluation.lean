import Moire.Evaluator

/-!
# Side-by-side evaluation is serial evaluation

The outcomes of the chunks come back in any order. `collect_of_perm` says that the order does not
matter: sorting by the tags restores the order of the chunks. What remains is a traversal that stops
at the first failure, first over the chunks and inside each over its points. `mapM_eq_ok_iff` and
`mapM_eq_error` describe such a traversal once, and both levels are instances of them.
`evaluate_serial` collects the consequences for every cut of the points into chunks.
-/

namespace Moire

variable {β γ : Type}

/-! ## Traversals that stop at the first failure -/

/-- The function returns a value at the point. -/
def Succeeds (f : β → Outcome γ) (point : β) : Prop :=
  ∃ value, f point = .ok value

/-- A traversal depends on the values at its points alone. -/
theorem mapM_congr {points : List β} {f g : β → Outcome γ}
    (h : ∀ point ∈ points, f point = g point) : points.mapM f = points.mapM g := by
  induction points with
  | nil => rfl
  | cons point points ih =>
      rw [List.mapM_cons, List.mapM_cons, h point List.mem_cons_self,
        ih fun other hother ↦ h other (List.mem_cons_of_mem _ hother)]

/-- A traversal stops at its first failure. -/
theorem mapM_eq_error {f : β → Outcome γ} {before after : List β} {point : β} {cause : Failure}
    (hbefore : ∀ other ∈ before, Succeeds f other) (hpoint : f point = .error cause) :
    (before ++ point :: after).mapM f = .error cause := by
  induction before with
  | nil => simp [List.mapM_cons, hpoint, bind, Except.bind]
  | cons first before ih =>
      obtain ⟨value, hvalue⟩ := hbefore first List.mem_cons_self
      have hrest := ih fun other hother ↦ hbefore other (List.mem_cons_of_mem _ hother)
      rw [List.cons_append, List.mapM_cons, hvalue, hrest]
      rfl

/-- There is a list of values when the function succeeds everywhere. -/
theorem exists_values_iff {f : β → Outcome γ} {points : List β} :
    (∃ values : List γ, values.map .ok = points.map f) ↔ ∀ point ∈ points, Succeeds f point := by
  induction points with
  | nil => simp
  | cons point points ih =>
      rw [List.forall_mem_cons, ← ih]
      constructor
      · rintro ⟨values, hvalues⟩
        obtain ⟨value, rest, rfl, hvalue, hrest⟩ := List.map_eq_cons_iff.mp hvalues
        exact ⟨⟨value, hvalue.symm⟩, rest, hrest⟩
      · rintro ⟨⟨value, hvalue⟩, rest, hrest⟩
        exact ⟨value :: rest, by simp [hvalue, hrest]⟩

/-- Either the function succeeds everywhere or there is a first point where it does not. -/
theorem succeeds_or_first_failure (f : β → Outcome γ) (points : List β) :
    (∀ point ∈ points, Succeeds f point) ∨
      ∃ before point after cause, points = before ++ point :: after ∧
        (∀ other ∈ before, Succeeds f other) ∧ f point = .error cause := by
  induction points with
  | nil => exact Or.inl (by simp)
  | cons first points ih =>
      cases hfirst : f first with
      | error cause => exact Or.inr ⟨[], first, points, cause, rfl, by simp, hfirst⟩
      | ok value =>
          have hsucceeds : Succeeds f first := ⟨value, hfirst⟩
          rcases ih with hall | ⟨before, point, after, cause, rfl, hbefore, hpoint⟩
          · exact Or.inl (List.forall_mem_cons.mpr ⟨hsucceeds, hall⟩)
          · exact Or.inr ⟨first :: before, point, after, cause, rfl,
              List.forall_mem_cons.mpr ⟨hsucceeds, hbefore⟩, hpoint⟩

/-- A traversal of points with known values returns them, in the order of the points. -/
theorem mapM_eq_ok {f : β → Outcome γ} {points : List β} {values : List γ}
    (h : values.map .ok = points.map f) : points.mapM f = .ok values := by
  induction points generalizing values with
  | nil =>
      rw [List.map_nil, List.map_eq_nil_iff] at h
      subst h
      rfl
  | cons point points ih =>
      obtain ⟨value, rest, rfl, hvalue, hrest⟩ := List.map_eq_cons_iff.mp h
      rw [List.mapM_cons, ← hvalue, ih hrest]
      rfl

/-- A traversal returns values exactly when they are the values at all points. -/
theorem mapM_eq_ok_iff {f : β → Outcome γ} {points : List β} {values : List γ} :
    points.mapM f = .ok values ↔ values.map .ok = points.map f := by
  refine ⟨fun h ↦ ?_, mapM_eq_ok⟩
  rcases succeeds_or_first_failure f points with hall | ⟨_, _, _, _, rfl, hbefore, hpoint⟩
  · obtain ⟨others, hothers⟩ := exists_values_iff.mpr hall
    rw [mapM_eq_ok hothers] at h
    cases h
    exact hothers
  · rw [mapM_eq_error hbefore hpoint] at h
    cases h

/-- A traversal returns a value for each point. -/
theorem length_of_mapM_eq_ok {f : β → Outcome γ} {points : List β} {values : List γ}
    (h : points.mapM f = .ok values) : values.length = points.length := by
  simpa using congrArg List.length (mapM_eq_ok_iff.mp h)

/-- A column of a table whose rows all reach it. -/
theorem mapM_entry {rows : List (List β)} {i : Nat} (fallback : β)
    (h : ∀ row ∈ rows, i < row.length) :
    rows.mapM (entry · i) = .ok (rows.map (·.getD i fallback)) := by
  refine mapM_eq_ok ?_
  rw [List.map_map]
  exact List.map_congr_left fun row hrow ↦ (entry_getD fallback (h row hrow)).symm

/-! ## The order of arrival -/

/-- The outcomes are tagged with the places of their chunks. -/
theorem chunk_results_index (f : β → Outcome γ) (chunks : List (List β)) :
    (chunkResults f chunks).map ChunkResult.index = List.range chunks.length := by
  simp [chunkResults, List.map_map, Function.comp_def, List.range_eq_range']

/-- An outcome is that of the chunk at the place of its tag. -/
theorem exists_chunk_of_mem {f : β → Outcome γ} {chunks : List (List β)} {result : ChunkResult γ}
    (h : result ∈ chunkResults f chunks) :
    ∃ chunk, chunks[result.index]? = some chunk ∧
      result.payload = runChunk result.index f chunk := by
  obtain ⟨⟨chunk, index⟩, hmem, rfl⟩ := List.mem_map.mp h
  exact ⟨chunk, List.mem_zipIdx_iff_getElem?.mp hmem, rfl⟩

/-- Two outcomes with the same tag are the same. -/
theorem eq_of_index_eq {f : β → Outcome γ} {chunks : List (List β)} {a b : ChunkResult γ}
    (ha : a ∈ chunkResults f chunks) (hb : b ∈ chunkResults f chunks) (h : a.index = b.index) :
    a = b := by
  obtain ⟨chunk, hchunk, hpayload⟩ := exists_chunk_of_mem ha
  obtain ⟨other, hother, hsame⟩ := exists_chunk_of_mem hb
  rw [h, hother] at hchunk
  cases hchunk
  rw [h, ← hsame] at hpayload
  cases a
  cases b
  simp_all

/-- Sorting by the tags restores the order of the chunks, whatever the order of arrival. -/
theorem sort_of_perm {f : β → Outcome γ} {chunks : List (List β)} {arrival : List (ChunkResult γ)}
    (h : arrival.Perm (chunkResults f chunks)) :
    (arrival.mergeSort fun a b ↦ a.index ≤ b.index) = chunkResults f chunks := by
  have hperm := (List.mergeSort_perm arrival fun a b ↦ a.index ≤ b.index).trans h
  have hsorted : (arrival.mergeSort fun a b ↦ a.index ≤ b.index).Pairwise
      fun a b ↦ decide (a.index ≤ b.index) := by
    refine List.pairwise_mergeSort (fun a b c ↦ ?_) (fun a b ↦ ?_) arrival
    · simpa using Nat.le_trans
    · simpa using Nat.le_total a.index b.index
  have hchunks : (chunkResults f chunks).Pairwise fun a b ↦ decide (a.index ≤ b.index) := by
    have hrange := @List.pairwise_le_range chunks.length
    rw [← chunk_results_index f chunks, List.pairwise_map] at hrange
    exact hrange.imp decide_eq_true
  refine List.Perm.eq_of_pairwise (fun a b ha hb hle hge ↦ ?_) hsorted hchunks hperm
  simp only [decide_eq_true_eq] at hle hge
  exact eq_of_index_eq (hperm.mem_iff.mp ha) hb (by omega)

/-- The collector sees the outcomes in the order of the chunks and misses none. -/
theorem collect_of_perm {f : β → Outcome γ} {chunks : List (List β)}
    {arrival : List (ChunkResult γ)} (h : arrival.Perm (chunkResults f chunks)) :
    collect chunks.length arrival = (chunkResults f chunks).mapM ChunkResult.payload := by
  have hlength : (chunkResults f chunks).length = chunks.length := by simp [chunkResults]
  simp [collect, sort_of_perm h, hlength]

/-! ## What a worker reports -/

/-- The stage that a worker reports for a failure on its chunk. -/
def Failure.workerStage : Failure → Stage
  | .error cause => cause.stage
  | .fault _ => .evaluation

/-- The reason that a worker reports: that of a numerical failure or of another worker as it is,
and the wording of any other failure. -/
def Failure.workerReason : Failure → String
  | .error (.worker _ _ reason) => reason
  | .error (.numerical _ reason) => reason
  | cause => cause.message

/-- The chunk's number is all that a report adds to a failure. -/
theorem Failure.onChunk_eq (chunk : Nat) (cause : Failure) :
    cause.onChunk chunk = .error (.worker chunk cause.workerStage cause.workerReason) := by
  cases cause with
  | error cause => cases cause <;> rfl
  | fault cause => rfl

/-- A chunk gives the values at its points. -/
theorem run_chunk_eq_ok_iff {index : Nat} {f : β → Outcome γ} {chunk : List β} {values : List γ} :
    runChunk index f chunk = .ok values ↔ values.map .ok = chunk.map f := by
  rw [← mapM_eq_ok_iff, runChunk]
  cases chunk.mapM f <;> simp

/-- Chunks of points where the function succeeds have values as outcomes. -/
theorem payload_succeeds {f : β → Outcome γ} {chunks : List (List β)} {result : ChunkResult γ}
    (h : ∀ point ∈ chunks.flatten, Succeeds f point) (hresult : result ∈ chunkResults f chunks) :
    Succeeds ChunkResult.payload result := by
  obtain ⟨chunk, hchunk, hpayload⟩ := exists_chunk_of_mem hresult
  have hmem := List.mem_of_getElem? hchunk
  obtain ⟨values, hvalues⟩ := exists_values_iff.mpr fun point hpoint ↦
    h point (List.mem_flatten.mpr ⟨chunk, hmem, hpoint⟩)
  exact ⟨values, hpayload.trans (run_chunk_eq_ok_iff.mpr hvalues)⟩

/-- The first failing point of the chunks is in the chunk of a given number and fails for a given
cause. -/
def FirstFailure (f : β → Outcome γ) (chunks : List (List β)) (index : Nat) (cause : Failure) :
    Prop :=
  ∃ earlier before point after later, chunks = earlier ++ (before ++ point :: after) :: later ∧
    earlier.length = index ∧ (∀ other ∈ earlier.flatten ++ before, Succeeds f other) ∧
    f point = .error cause

/-- Points that do not all succeed have a first failure, in one of the chunks. -/
theorem exists_first_failure {f : β → Outcome γ} {chunks : List (List β)}
    (h : ¬ ∀ point ∈ chunks.flatten, Succeeds f point) :
    ∃ index cause, FirstFailure f chunks index cause := by
  induction chunks with
  | nil => simp at h
  | cons chunk chunks ih =>
      rcases succeeds_or_first_failure f chunk with hall | hfirst
      · have hrest : ¬ ∀ point ∈ chunks.flatten, Succeeds f point := by
          intro hrest
          apply h
          rw [List.flatten_cons, List.forall_mem_append]
          exact ⟨hall, hrest⟩
        obtain ⟨_, cause, earlier, before, point, after, later, rfl, rfl, hbefore, hpoint⟩ :=
          ih hrest
        refine ⟨_, cause, chunk :: earlier, before, point, after, later, rfl, rfl, ?_, hpoint⟩
        rw [List.flatten_cons, List.append_assoc, List.forall_mem_append]
        exact ⟨hall, hbefore⟩
      · obtain ⟨before, point, after, cause, rfl, hbefore, hpoint⟩ := hfirst
        exact ⟨0, cause, [], before, point, after, chunks, rfl, rfl, hbefore, hpoint⟩

/-- Serial evaluation stops at the first failure, whatever the chunks. -/
theorem FirstFailure.serial {f : β → Outcome γ} {chunks : List (List β)} {index : Nat}
    {cause : Failure} (h : FirstFailure f chunks index cause) :
    chunks.flatten.mapM f = .error cause := by
  obtain ⟨earlier, before, point, after, later, rfl, -, hbefore, hpoint⟩ := h
  have hflatten : (earlier ++ (before ++ point :: after) :: later).flatten =
      (earlier.flatten ++ before) ++ point :: (after ++ later.flatten) := by simp
  rw [hflatten]
  exact mapM_eq_error hbefore hpoint

/-- The chunk of the first failure is the first one whose outcome is a failure. -/
theorem FirstFailure.results {f : β → Outcome γ} {chunks : List (List β)} {index : Nat}
    {cause : Failure} (h : FirstFailure f chunks index cause) :
    (chunkResults f chunks).mapM ChunkResult.payload = .error (cause.onChunk index) := by
  obtain ⟨earlier, before, point, after, later, rfl, rfl, hbefore, hpoint⟩ := h
  rw [List.forall_mem_append] at hbefore
  rw [chunkResults, List.zipIdx_append, List.zipIdx_cons, List.map_append, List.map_cons]
  refine mapM_eq_error (fun result ↦ payload_succeeds hbefore.1) ?_
  simp [runChunk, mapM_eq_error hbefore.2 hpoint]

/-- The outcomes of the chunks are values exactly when the values at all points are those. -/
theorem payloads_eq_iff {f : β → Outcome γ} {chunks : List (List β)} {values : List (List γ)} :
    (chunkResults f chunks).mapM ChunkResult.payload = .ok values ↔
      values.map (List.map .ok) = chunks.map (List.map f) := by
  rw [mapM_eq_ok_iff, chunkResults, List.map_map]
  -- The numbers of the chunks do not show in their values, so the first number is arbitrary.
  generalize 0 = start
  induction chunks generalizing start values with
  | nil => simp
  | cons chunk chunks ih =>
      cases values with
      | nil => simp
      | cons first rest =>
          have hfirst := @run_chunk_eq_ok_iff _ _ start f chunk first
          rw [List.zipIdx_cons, List.map_cons, List.map_cons, List.map_cons, List.map_cons,
            List.cons.injEq, List.cons.injEq, ih, ← hfirst]
          exact and_congr_left fun _ ↦ eq_comm

/-! ## Cutting a list into chunks -/

/-- Pieces of one size and a last piece with the remainder make up the list. -/
theorem split_sizes_flatten (count size rest : Nat) (items : List β)
    (h : items.length = count * size + rest) :
    (splitSizes (List.replicate count size ++ [rest]) items).flatten = items := by
  induction count generalizing items with
  | zero =>
      have hlength : items.length ≤ rest := by omega
      simp [splitSizes, List.take_of_length_le hlength]
  | succ count ih =>
      have hlength : (items.drop size).length = count * size + rest := by
        rw [List.length_drop, h, Nat.succ_mul]
        omega
      rw [List.replicate_succ, List.cons_append, splitSizes, List.flatten_cons, ih _ hlength,
        List.take_append_drop]

/-- The chunks are the list, cut. -/
theorem Evaluator.partition_flatten (evaluator : Evaluator) (items : List β) :
    (evaluator.partition items).flatten = items := by
  rw [partition, chunkSizes]
  split
  · next hzero => simp [splitSizes, List.eq_nil_of_length_eq_zero hzero]
  · have hle : (min evaluator.workers items.length - 1) *
        (items.length / min evaluator.workers items.length) ≤ items.length := by
      calc (min evaluator.workers items.length - 1) *
            (items.length / min evaluator.workers items.length)
          ≤ min evaluator.workers items.length *
              (items.length / min evaluator.workers items.length) :=
            Nat.mul_le_mul_right _ (Nat.sub_le _ _)
        _ ≤ items.length := Nat.mul_div_le _ _
    exact split_sizes_flatten _ _ _ items (Nat.add_sub_cancel' hle).symm

/-! ## Every order of arrival gives the serial outcome -/

/-- The result is that of visiting the points one after another. There are values exactly when the
function succeeds at every point, and they are the right ones; else there is a first failing point,
and the result is a worker's report of it with the number of its chunk. -/
structure ReportsSerial {α : Type} (f : β → Outcome γ) (chunks : List (List β))
    (IsValue : α → Prop) (result : Outcome α) : Prop where
  ok_iff : (∃ values, result = .ok values) ↔ ∀ point ∈ chunks.flatten, Succeeds f point
  values : ∀ values, result = .ok values → IsValue values
  fails : ¬ (∀ point ∈ chunks.flatten, Succeeds f point) →
    ∃ index cause, FirstFailure f chunks index cause
  report : ∀ index cause, FirstFailure f chunks index cause →
    result = fail (.worker index cause.workerStage cause.workerReason)

/-- The result with its values transformed. -/
theorem ReportsSerial.map {α δ : Type} {f : β → Outcome γ} {chunks : List (List β)}
    {IsValue : α → Prop} {IsImage : δ → Prop} {result : Outcome α} (g : α → δ)
    (h : ReportsSerial f chunks IsValue result)
    (himage : ∀ values, IsValue values → IsImage (g values)) :
    ReportsSerial f chunks IsImage (result.map g) := by
  refine ⟨?_, ?_, h.fails, ?_⟩
  · rw [← h.ok_iff]
    cases result <;> simp [Except.map]
  · intro values hvalues
    cases result with
    | error cause => simp [Except.map] at hvalues
    | ok original =>
        cases hvalues
        exact himage original (h.values original rfl)
  · intro index cause hfirst
    rw [h.report index cause hfirst]
    rfl

/-- The collector returns the serial outcome over the chunks. -/
theorem collect_serial {f : β → Outcome γ} {chunks : List (List β)}
    {arrival : List (ChunkResult γ)} (h : arrival.Perm (chunkResults f chunks)) :
    ReportsSerial f chunks (fun values ↦ values.map (List.map .ok) = chunks.map (List.map f))
      (collect chunks.length arrival) := by
  rw [collect_of_perm h]
  refine ⟨⟨fun ⟨values, hvalues⟩ ↦ ?_, fun hall ↦ ?_⟩, fun values ↦ payloads_eq_iff.mp,
    exists_first_failure, fun index cause hfirst ↦ ?_⟩
  · refine Classical.byContradiction fun hfail ↦ ?_
    obtain ⟨index, cause, hfirst⟩ := exists_first_failure hfail
    rw [hfirst.results] at hvalues
    cases hvalues
  · obtain ⟨values, hvalues⟩ := exists_values_iff.mpr fun result ↦ payload_succeeds hall
    exact ⟨values, mapM_eq_ok hvalues⟩
  · rw [hfirst.results, Failure.onChunk_eq]
    rfl

/-- The flat list of values is the serial outcome over the points of the chunks. -/
theorem assemble_serial {f : β → Outcome γ} {chunks : List (List β)}
    {arrival : List (ChunkResult γ)} (h : arrival.Perm (chunkResults f chunks)) :
    ReportsSerial f chunks (fun values ↦ values.map .ok = chunks.flatten.map f)
      (assemble chunks.length arrival) := by
  have hassemble : assemble chunks.length arrival =
      (collect chunks.length arrival).map List.flatten := by
    rw [assemble]
    cases collect chunks.length arrival <;> rfl
  rw [hassemble]
  refine (collect_serial h).map List.flatten fun values hvalues ↦ ?_
  rw [List.map_flatten, List.map_flatten, hvalues]

/-- The results have the same values, or are failures that differ in the number of the chunk
alone. -/
def SameUpToChunk (result other : Outcome (List γ)) : Prop :=
  (∃ values, result = .ok values ∧ other = .ok values) ∨
    ∃ index place stage reason, result = fail (.worker index stage reason) ∧
      other = fail (.worker place stage reason)

/-- Serial outcomes over the same points agree up to the number of the chunk. -/
theorem ReportsSerial.same {f : β → Outcome γ} {chunks others : List (List β)}
    {result other : Outcome (List γ)} (hflatten : chunks.flatten = others.flatten)
    (h : ReportsSerial f chunks (fun values ↦ values.map .ok = chunks.flatten.map f) result)
    (hother : ReportsSerial f others (fun values ↦ values.map .ok = others.flatten.map f) other) :
    SameUpToChunk result other := by
  by_cases hall : ∀ point ∈ chunks.flatten, Succeeds f point
  · obtain ⟨values, rfl⟩ := h.ok_iff.mpr hall
    obtain ⟨same, rfl⟩ := hother.ok_iff.mpr (hflatten ▸ hall)
    have hvalues := mapM_eq_ok (h.values values rfl)
    have hsame := mapM_eq_ok (hother.values same rfl)
    rw [hflatten, hsame] at hvalues
    cases hvalues
    exact Or.inl ⟨values, rfl, rfl⟩
  · obtain ⟨index, cause, hfirst⟩ := h.fails hall
    obtain ⟨place, otherCause, hplace⟩ := hother.fails (hflatten ▸ hall)
    -- The serial traversal meets one failure first, so both reports have the same cause.
    have hcause := hplace.serial
    rw [← hflatten, hfirst.serial] at hcause
    cases hcause
    exact Or.inr ⟨index, place, _, _, h.report index cause hfirst,
      hother.report place cause hplace⟩

/-- Where the values at all points are known, they are what any number of workers returns. -/
theorem Evaluator.evaluate_eq_ok (evaluator : Evaluator) {points : List β} {f : β → Outcome γ}
    {values : List γ} (h : values.map .ok = points.map f) :
    evaluator.evaluate points f = .ok values := by
  have hserial := assemble_serial (List.Perm.refl (chunkResults f (evaluator.partition points)))
  rw [evaluator.partition_flatten] at hserial
  have hall : ∀ point ∈ (evaluator.partition points).flatten, Succeeds f point := by
    rw [evaluator.partition_flatten]
    exact exists_values_iff.mp ⟨values, h⟩
  obtain ⟨others, hothers⟩ := hserial.ok_iff.mpr hall
  have hsame := (mapM_eq_ok h).symm.trans (mapM_eq_ok (hserial.values others hothers))
  cases hsame
  exact hothers

/-- Evaluation returns values exactly when they are the values at all points. -/
theorem Evaluator.evaluate_eq_ok_iff {evaluator : Evaluator} {points : List β} {f : β → Outcome γ}
    {values : List γ} : evaluator.evaluate points f = .ok values ↔
      values.map .ok = points.map f := by
  refine ⟨fun h ↦ ?_, evaluator.evaluate_eq_ok⟩
  have hvalues := (assemble_serial (List.Perm.refl _)).values values h
  rwa [evaluator.partition_flatten] at hvalues

/-- Functions that agree at all points are evaluated to the same. -/
theorem Evaluator.evaluate_congr (evaluator : Evaluator) {points : List β}
    {f g : β → Outcome γ} (h : ∀ point ∈ points, f point = g point) :
    evaluator.evaluate points f = evaluator.evaluate points g := by
  have hchunk : ∀ chunk ∈ evaluator.partition points, chunk.mapM f = chunk.mapM g := by
    intro chunk hmem
    refine mapM_congr fun point hpoint ↦ h point ?_
    rw [← evaluator.partition_flatten points]
    exact List.mem_flatten_of_mem hmem hpoint
  have hresults : chunkResults f (evaluator.partition points) =
      chunkResults g (evaluator.partition points) := by
    refine List.map_congr_left fun entry hentry ↦ congrArg (ChunkResult.mk entry.2) ?_
    unfold runChunk
    rw [hchunk entry.1 (List.fst_mem_of_mem_zipIdx hentry)]
  rw [evaluate, evaluate, hresults]

/-- The values do not depend on the number of workers. -/
theorem Evaluator.evaluate_of_evaluate {evaluator other : Evaluator} {points : List β}
    {f : β → Outcome γ} {values : List γ} (h : evaluator.evaluate points f = .ok values) :
    other.evaluate points f = .ok values :=
  other.evaluate_eq_ok (evaluate_eq_ok_iff.mp h)

/-- Whatever the order in which the outcomes of the chunks arrive, evaluation gives the serial
outcome: over caller's chunks, empty ones included, and over the chunks of any number of workers.
Two ways to cut the same points, and two numbers of workers, differ at most in the number of the
chunk that a failure names. -/
theorem evaluate_serial (f : β → Outcome γ) :
    (∀ (evaluator : Evaluator) (chunks : List (List β)) (arrival : List (ChunkResult γ)),
      arrival.Perm (chunkResults f chunks) →
      collect chunks.length arrival = evaluator.evaluateChunks chunks f ∧
      ReportsSerial f chunks (fun values ↦ values.map (List.map .ok) = chunks.map (List.map f))
        (collect chunks.length arrival)) ∧
    (∀ (evaluator : Evaluator) (points : List β) (arrival : List (ChunkResult γ)),
      arrival.Perm (chunkResults f (evaluator.partition points)) →
      assemble (evaluator.partition points).length arrival = evaluator.evaluate points f ∧
      (evaluator.partition points).flatten = points ∧
      ReportsSerial f (evaluator.partition points) (fun values ↦ values.map .ok = points.map f)
        (assemble (evaluator.partition points).length arrival)) ∧
    (∀ (chunks others : List (List β)) (arrival otherArrival : List (ChunkResult γ)),
      chunks.flatten = others.flatten → arrival.Perm (chunkResults f chunks) →
      otherArrival.Perm (chunkResults f others) →
      SameUpToChunk (assemble chunks.length arrival) (assemble others.length otherArrival)) ∧
    ∀ (evaluator other : Evaluator) (points : List β),
      SameUpToChunk (evaluator.evaluate points f) (other.evaluate points f) := by
  refine ⟨fun evaluator chunks arrival h ↦ ⟨?_, collect_serial h⟩,
    fun evaluator points arrival h ↦ ⟨?_, evaluator.partition_flatten points, ?_⟩,
    fun chunks others arrival otherArrival hflatten h hother ↦
      (assemble_serial h).same hflatten (assemble_serial hother),
    fun evaluator other points ↦ ?_⟩
  · rw [Evaluator.evaluateChunks, collect_of_perm h, collect_of_perm (List.Perm.refl _)]
  · rw [Evaluator.evaluate, assemble, assemble, collect_of_perm h,
      collect_of_perm (List.Perm.refl _)]
  · have hserial := assemble_serial h
    rwa [evaluator.partition_flatten points] at hserial
  · have hflatten : (evaluator.partition points).flatten = (other.partition points).flatten := by
      rw [evaluator.partition_flatten, other.partition_flatten]
    exact (assemble_serial (List.Perm.refl _)).same hflatten
      (assemble_serial (List.Perm.refl _))

/-- A numerical failure at the point 2 comes before a fault at the points 3: the third chunk reports
it although the outcome of the fourth arrives first. -/
theorem evaluate_serial_reversed :
    let f : Nat → Outcome Nat := fun point ↦
      if point = 2 then fail (.numerical .aggregation "bad point")
      else if point = 3 then breakDown (.raised none)
      else .ok point
    let chunks := [[0, 1], [], [1, 2, 3], [3]]
    (chunkResults f chunks).reverse.Perm (chunkResults f chunks) ∧
    collect chunks.length (chunkResults f chunks).reverse =
      fail (.worker 2 .aggregation "bad point") := by
  intro f chunks
  have harrival : (chunkResults f chunks).reverse.Perm (chunkResults f chunks) :=
    List.reverse_perm _
  have hfirst : FirstFailure f chunks 2 (.error (.numerical .aggregation "bad point")) :=
    ⟨[[0, 1], []], [1], 2, [3], [[3]], rfl, rfl, by simp [Succeeds, f], rfl⟩
  have hserial := ((evaluate_serial f).1 ⟨2⟩ chunks _ harrival).2
  exact ⟨harrival, hserial.report 2 _ hfirst⟩

end Moire
