import Mathlib.Tactic
import Moire.Proofs.CacheTransparency
import Moire.Proofs.PickleRoundTrip

/-!
# The size of stored tables

A file keeps a table if its number of rows and their width fit a signed word, `SmallTable`. The
tables that tasks store are of this size: memory was there for the points of the grid
(`length_uniformGrid`) and of every side of a path (`HighSymmetryPath.length_sample`), the ends of a
window are words, the entries of a spectrum were counted when it was packed, and memory was there
for Raman amplitudes. With keys that have no bar this makes every table one that a folder can keep,
`TaskContext.keepable_file`.
-/

namespace Moire

variable {α : Type}

/-! ## Tables that a file keeps -/

/-- The rows and the entries of each row are fewer than memory holds bytes. -/
structure SmallTable (rows : List (List α)) : Prop where
  length_lt : rows.length < memoryLimit
  width_lt : ∀ row ∈ rows, row.length < memoryLimit

/-- A small table is packed into an array of small shape. -/
theorem SmallTable.smallShape {rows : List (List α)} {array : StoredArray α} (h : SmallTable rows)
    (harray : StoredArray.ofRows rows = .ok array) : array.SmallShape := by
  obtain ⟨-, -, rfl⟩ := StoredArray.ofRows_eq_ok_iff.mp harray
  have hwidth : (rows.head?.map List.length).getD 0 < memoryLimit := by
    cases rows with
    | nil => exact (by decide : 0 < memoryLimit)
    | cons row rows => exact h.width_lt row List.mem_cons_self
  intro n hn
  obtain rfl | rfl : n = rows.length ∨ n = (rows.head?.map List.length).getD 0 := by
    simpa using hn
  · exact h.length_lt
  · exact hwidth

/-- A table of at least two columns that was packed is small, since its entries were counted. -/
theorem HaveWidth.smallTable {width : ℕ} {rows : List (List α)} {array : StoredArray α}
    (h : HaveWidth width rows) (hlow : 2 ≤ width) (hhigh : width < memoryLimit)
    (harray : StoredArray.ofRows rows = .ok array) : SmallTable rows := by
  obtain ⟨-, ⟨-, hcount⟩, -⟩ := StoredArray.ofRows_eq_ok_iff.mp harray
  have hentries := length_flatten_of_forall h
  refine ⟨?_, fun row hrow ↦ (h row hrow).symm ▸ hhigh⟩
  have hdouble : rows.length * 2 ≤ rows.length * width := Nat.mul_le_mul_left _ hlow
  unfold countLimit at hcount
  unfold memoryLimit
  omega

/-! ## Points that were sampled -/

/-- An evaluation returns a value for each point. -/
theorem length_evaluate {β γ : Type} {evaluator : Evaluator} {points : List β} {f : β → Outcome γ}
    {values : List γ} (h : evaluator.evaluate points f = .ok values) :
    values.length = points.length := by
  simpa using congrArg List.length (Evaluator.evaluate_eq_ok_iff.mp h)

/-- So does an evaluation of chunks. -/
theorem length_evaluateChunks {β γ : Type} {evaluator : Evaluator} {chunks : List (List β)}
    {f : β → Outcome γ} {values : List (List γ)}
    (h : evaluator.evaluateChunks chunks f = .ok values) :
    values.flatten.length = chunks.flatten.length := by
  have hvalues := congrArg List.flatten ((collect_serial (List.Perm.refl _)).values values h)
  rw [← List.map_flatten, ← List.map_flatten] at hvalues
  have hlength := congrArg List.length hvalues
  rwa [List.length_map, List.length_map] at hlength

variable [Scalar α]

/-- Memory was there for the points of a grid. -/
theorem length_uniformGrid {v₁ v₂ : KPoint α} {n : ℕ} {points : List (KPoint α)}
    (h : uniformGrid v₁ v₂ n = .ok points) : points.length * pointSize < memoryLimit := by
  obtain ⟨count, hcount, h⟩ := bind_eq_ok.mp h
  obtain ⟨_, hreserve, h⟩ := bind_eq_ok.mp h
  cases h
  obtain ⟨-, rfl⟩ := mulCount_eq_ok_iff.mp hcount
  simpa [List.length_flatMap] using lt_of_reserve hreserve

/-- Memory was there for the points of every side of a path. -/
theorem length_sides {density : α} {vertices : List (KPoint α)} {segments : List (List (KPoint α))}
    (h : sides density vertices = .ok segments) :
    segments.flatten.length * pointSize ≤ vertices.length * memoryLimit := by
  induction vertices generalizing segments with
  | nil =>
      cases h
      simp
  | cons p rest ih =>
      cases rest with
      | nil =>
          cases h
          simp
      | cons q rest =>
          obtain ⟨side, others, hside, hothers, rfl⟩ := sides_cons h
          have hcount : side.length * pointSize < memoryLimit := by
            rw [length_segment hside]
            obtain ⟨_, hreserve, -⟩ := bind_eq_ok.mp hside
            exact lt_of_reserve hreserve
          have hrest := ih hothers
          rw [List.flatten_cons, List.length_append, List.length_cons]
          linarith

/-- A path of a few sides has fewer points than memory holds bytes. -/
theorem HighSymmetryPath.length_sample {path : HighSymmetryPath α} {density : α}
    {includeLast : Bool} {sampled : KPath α} (h : path.sample density includeLast = .ok sampled)
    (hvertices : path.vertices.length ≤ 5) : sampled.points.length < memoryLimit := by
  obtain ⟨line, hline, h⟩ := bind_eq_ok.mp h
  cases h
  obtain ⟨segments, tail, hsegments, htail, rfl⟩ := polyline_eq_ok hline
  have hsides := length_sides hsegments
  have hlast : tail.flatten.length ≤ 1 := by
    rw [htail]
    split
    · cases path.vertices.getLast? <;> simp
    · simp
  have hfew : path.vertices.length * memoryLimit ≤ 5 * memoryLimit :=
    Nat.mul_le_mul_right _ hvertices
  show ((segments ++ tail).flatten).length < memoryLimit
  rw [List.flatten_append, List.length_append]
  unfold memoryLimit pointSize at *
  omega

/-! ## Tables of tasks -/

namespace TaskContext

variable {ctx : TaskContext α}

/-- Energies over the grid are a small table. -/
theorem smallTable_energies (ctx : TaskContext α) : Ensures ctx.energiesOverGrid SmallTable := by
  have hgrid (points : List (KPoint α)) (h : ctx.grid = .ok points) :
      points.length * pointSize < memoryLimit := by
    unfold TaskContext.grid at h
    exact length_uniformGrid h
  refine (ensures_outcome hgrid).bind fun points hpoints ↦ (ensures_true _).bind fun _ _ ↦
    ensures_outcome fun rows hrows ↦ ⟨?_, fun row hrow ↦ ?_⟩
  · rw [length_evaluate hrows]
    unfold pointSize at hpoints
    omega
  · obtain ⟨k, -, hk⟩ := exists_of_mem_evaluate hrows row hrow
    exact (length_windowAt hk).2

/-- Energies along a path whose points fit into memory are a small table. -/
theorem smallTable_bands {path : KPath α} (h : path.points.length < memoryLimit) :
    Ensures (ctx.energiesAlong path) SmallTable := by
  refine (ensures_true _).bind fun _ _ ↦ ensures_outcome fun rows hrows ↦ ?_
  obtain ⟨chunks, hchunks, hrows⟩ := bind_eq_ok.mp hrows
  cases hrows
  refine ⟨(length_evaluateChunks hchunks).trans_lt h, fun row hrow ↦ ?_⟩
  obtain ⟨k, hk⟩ := exists_of_mem_evaluateChunks hchunks row hrow
  exact (length_windowAt hk).2

/-- Raman rows are a small table. -/
theorem smallTable_raman (ctx : TaskContext α) (points : List (KPoint α)) :
    Ensures (ctx.ramanRows points) SmallTable := by
  refine ctx.ensures_ramanRows points fun terms hlength hwidth ↦ ⟨?_, fun row hrow ↦ ?_⟩
  · rw [List.length_map]
    unfold StoredArray.rowSize at hlength
    omega
  · obtain ⟨term, hterm, rfl⟩ := List.mem_map.mp hrow
    have hparts := hwidth term hterm
    rw [length_splitParts]
    omega

/-- Every path that is drawn for a model has at most five vertices. -/
theorem length_vertices_le (model : TwistedModel α) :
    model.defaultPath.vertices.length ≤ 5 ∧ model.ramanPath.vertices.length ≤ 5 := by
  cases model with
  | continuum => exact ⟨show 5 ≤ 5 from le_rfl, show 4 ≤ 5 by omega⟩
  | tightBinding => exact ⟨show 4 ≤ 5 by omega, show 4 ≤ 5 by omega⟩

/-- What a task stores is a small table. -/
theorem Stores.smallTable {quantity : Quantity} {density : ℕ} {compute : Logged (List (List α))}
    (h : ctx.Stores quantity density compute) {rows : List (List α)}
    (hrows : compute.result = .ok rows) {array : StoredArray α}
    (harray : StoredArray.ofRows rows = .ok array) : SmallTable rows := by
  cases h with
  | energies => exact ctx.smallTable_energies #[] rows hrows
  | bands hpath =>
      exact smallTable_bands (HighSymmetryPath.length_sample hpath (length_vertices_le _).1) #[]
        rows hrows
  | absorption =>
      exact (ctx.haveWidth_absorptionRows #[] rows hrows).smallTable le_rfl (by decide) harray
  | conductivity =>
      exact (ctx.haveWidth_conductivityRows #[] rows hrows).smallTable (by decide) (by decide)
        harray
  | raman => exact ctx.smallTable_raman _ #[] rows hrows

/-- Every table of a task can be kept in a file of its own. -/
theorem keepable_file [KeyLaws α] (ctx : TaskContext α) :
    ctx.Keepable (fun key ↦ '/' ∉ key.toList) StoredArray.SmallShape :=
  ⟨fun _ _ ↦ ctx.slash_notMem_key _ _, fun hstores _ hrows _ harray ↦
    (hstores.smallTable hrows harray).smallShape harray⟩

end TaskContext

end Moire
