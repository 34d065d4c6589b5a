import Mathlib
import Moire.Proofs.HistogramBins
import Moire.Proofs.Sorting
import Moire.Proofs.StoredRows

/-!
# Where computations break down

A failure is an error that is reported or a breakdown, and a breakdown of a computation is one of
its parts (`bind_eq_breakDown`, `mapM_eq_breakDown`). Computing a table breaks down only because
something is too large, `Stores.sizeFaults`, since what breaks down in a worker is reported as an
error. Unpacking a stored table breaks down for too many empty rows, and leaves one row that is
shorter than the others if the shape does not fit the numbers (`exists_chunksOf`). Sums of Raman
amplitudes are the one place where such a row is not tolerated, `Raman.ofRows_toRows`. Medians break
down where the sort stops, histograms for too many bins, and differences of bands for too many pairs
or where an index leaves its word.
-/

namespace Moire

/-! ## Breakdowns -/

section

variable {S β γ : Type} {fault : Fault}

/-- A computation in two parts breaks down in the first one or in the second. -/
theorem bind_eq_breakDown {first : Outcome β} {next : β → Outcome γ} :
    (first >>= next) = breakDown fault ↔
      first = breakDown fault ∨ ∃ value, first = .ok value ∧ next value = breakDown fault := by
  cases first with
  | error cause =>
      show Except.error cause = Except.error (.fault fault) ↔ _
      simp [breakDown]
  | ok value =>
      show next value = _ ↔ _
      simp [breakDown]

/-- The result of a computation in two parts is that of the second one, after the first. -/
theorem run_bind_result (first : ExceptT Failure (StateM S) β)
    (next : β → ExceptT Failure (StateM S) γ) (s : S) :
    ((first >>= next) s).1 = (first s).1 >>= fun value ↦ (next value (first s).2).1 := by
  rcases hfirst : (first s).1 with cause | value
  · rw [run_bind_error hfirst]
    rfl
  · rw [run_bind_ok hfirst]
    rfl

/-- Two steps break down when the first does, or the second on what the first returned. -/
theorem run_bind_eq_breakDown {first : ExceptT Failure (StateM S) β}
    {next : β → ExceptT Failure (StateM S) γ} {s : S} :
    ((first >>= next) s).1 = breakDown fault ↔ (first s).1 = breakDown fault ∨
      ∃ value, (first s).1 = .ok value ∧ (next value (first s).2).1 = breakDown fault := by
  rw [run_bind_result, bind_eq_breakDown]

/-- A traversal breaks down where its first failure is a breakdown. -/
theorem mapM_eq_breakDown {f : β → Outcome γ} {points : List β} :
    points.mapM f = breakDown fault ↔ ∃ before point after, points = before ++ point :: after ∧
      (∀ other ∈ before, Succeeds f other) ∧ f point = breakDown fault := by
  constructor
  · intro h
    rcases succeeds_or_first_failure f points with
      hall | ⟨before, point, after, cause, rfl, hbefore, hpoint⟩
    · obtain ⟨values, hvalues⟩ := exists_values_iff.mpr hall
      rw [mapM_eq_ok hvalues] at h
      cases h
    · rw [mapM_eq_error hbefore hpoint] at h
      cases h
      exact ⟨before, point, after, rfl, hbefore, hpoint⟩
  · rintro ⟨before, point, after, rfl, hbefore, hpoint⟩
    exact mapM_eq_error hbefore hpoint

end

/-! ## Computing a table -/

/-- Something is too large for memory, or for a count. -/
def Fault.IsSize : Fault → Prop
  | .overflow .multiply | .capacityOverflow => True
  | _ => False

/-- The computation breaks down only because something is too large. -/
def SizeFaults {β : Type} (outcome : Outcome β) : Prop :=
  ∀ fault, outcome = breakDown fault → fault.IsSize

section

variable {S β γ : Type}

/-- A value is no breakdown. -/
theorem sizeFaults_ok (value : β) : SizeFaults (.ok value : Outcome β) := nofun

/-- An error is no breakdown. -/
theorem sizeFaults_fail (cause : Error) : SizeFaults (fail cause : Outcome β) := nofun

/-- Steps that break down only by size do so one after the other. -/
theorem SizeFaults.bind {first : Outcome β} {next : β → Outcome γ} (h : SizeFaults first)
    (hnext : ∀ value, SizeFaults (next value)) : SizeFaults (first >>= next) := by
  intro fault hfault
  rcases bind_eq_breakDown.mp hfault with hfirst | ⟨value, -, hvalue⟩
  · exact h fault hfirst
  · exact hnext value fault hvalue

/-- Steps over a state that break down only by size do so one after the other. -/
theorem sizeFaults_run_bind {first : ExceptT Failure (StateM S) β}
    {next : β → ExceptT Failure (StateM S) γ} (h : ∀ s, SizeFaults (first s).1)
    (hnext : ∀ value s, SizeFaults (next value s).1) (s : S) :
    SizeFaults ((first >>= next) s).1 := by
  intro fault hfault
  rcases run_bind_eq_breakDown.mp hfault with hfirst | ⟨value, -, hvalue⟩
  · exact h s fault hfirst
  · exact hnext value _ fault hvalue

/-- A product of counts breaks down only by size. -/
theorem sizeFaults_mulCount (x y : ℕ) : SizeFaults (mulCount x y) := by
  unfold mulCount
  split
  · exact sizeFaults_ok _
  · rintro _ ⟨⟩
    trivial

/-- Memory is refused for more than it can address. -/
theorem reserve_eq_breakDown {count size : ℕ} {fault : Fault} :
    reserve count size = breakDown fault ↔
      memoryLimit ≤ count * size ∧ fault = .capacityOverflow := by
  unfold reserve
  split
  next hroom => simp [breakDown, hroom]
  next hroom => simp [breakDown, not_lt.mp hroom, eq_comm]

/-- Reserving memory breaks down only by size. -/
theorem sizeFaults_reserve (count size : ℕ) : SizeFaults (reserve count size) := by
  intro fault hfault
  rw [(reserve_eq_breakDown.mp hfault).2]
  trivial

/-- A breakdown of a worker is reported as an error. -/
theorem ReportsSerial.sizeFaults {δ : Type} {f : β → Outcome γ} {chunks : List (List β)}
    {IsValue : δ → Prop} {result : Outcome δ} (h : ReportsSerial f chunks IsValue result) :
    SizeFaults result := by
  by_cases hall : ∀ point ∈ chunks.flatten, Succeeds f point
  · obtain ⟨values, rfl⟩ := h.ok_iff.mpr hall
    exact sizeFaults_ok values
  · obtain ⟨index, cause, hfirst⟩ := h.fails hall
    rw [h.report index cause hfirst]
    exact sizeFaults_fail _

/-- An evaluation breaks down only by size, whatever it evaluates. -/
theorem sizeFaults_evaluate (evaluator : Evaluator) (points : List β) (f : β → Outcome γ) :
    SizeFaults (evaluator.evaluate points f) :=
  (assemble_serial (List.Perm.refl _)).sizeFaults

/-- Packing rows breaks down only by size. -/
theorem sizeFaults_ofRows (rows : List (List β)) : SizeFaults (StoredArray.ofRows rows) := by
  unfold StoredArray.ofRows
  dsimp only
  split
  · exact sizeFaults_fail _
  · refine SizeFaults.bind ?_ fun expected ↦ ?_
    · exact (sizeFaults_mulCount _ _).bind fun _ ↦
        (sizeFaults_mulCount _ _).bind fun _ ↦ sizeFaults_ok _
    · dsimp only
      split
      · exact (sizeFaults_fail _).bind fun _ ↦ sizeFaults_ok _
      · exact sizeFaults_ok _

end

section

variable {α : Type} [Scalar α] {ctx : TaskContext α}

/-- The grid breaks down only by size. -/
theorem sizeFaults_grid : SizeFaults ctx.grid :=
  (sizeFaults_mulCount _ _).bind fun _ ↦ (sizeFaults_reserve _ _).bind fun _ ↦ sizeFaults_ok _

/-- The sides of a path break down only by size. -/
theorem sizeFaults_sides (density : α) (vertices : List (KPoint α)) :
    SizeFaults (sides density vertices) := by
  fun_induction sides density vertices with
  | case1 p q rest ih =>
      refine SizeFaults.bind ?_ fun _ ↦ ih.bind fun _ ↦ sizeFaults_ok _
      exact (sizeFaults_reserve _ _).bind fun _ ↦ sizeFaults_ok _
  | case2 => exact sizeFaults_ok _

/-- The sampling of a path breaks down only by size. -/
theorem sizeFaults_sample (path : HighSymmetryPath α) (density : α) (includeLast : Bool) :
    SizeFaults (path.sample density includeLast) :=
  ((sizeFaults_sides _ _).bind fun _ ↦ sizeFaults_ok _).bind fun _ ↦ sizeFaults_ok _

/-- The checks before a spectrum break down only by size. -/
theorem sizeFaults_validateSpectrum {β : Type} (points : List β) (photons : List α) (width : α)
    (name : String) : SizeFaults (validateSpectrum points photons width name) := by
  unfold validateSpectrum
  dsimp only
  split
  · exact sizeFaults_fail _
  split
  · exact sizeFaults_fail _
  split
  · exact sizeFaults_fail _
  · exact sizeFaults_ok _

omit [Scalar α] in
/-- The checks before the Raman terms break down only by size. -/
theorem sizeFaults_validate {β : Type} (points : List β) (params : RamanParams α) :
    SizeFaults (Raman.validate points params) := by
  unfold Raman.validate
  dsimp only
  split
  · exact sizeFaults_fail _
  split
  · split
    · exact sizeFaults_fail _
    · exact sizeFaults_ok _
  · exact sizeFaults_ok _

omit [Scalar α] in
/-- Splitting amplitudes into their parts breaks down only by size. -/
theorem sizeFaults_splitRows (terms : List (List (Cplx α))) : SizeFaults (terms.mapM splitRow) := by
  intro fault hfault
  obtain ⟨_, row, _, -, -, hrow⟩ := mapM_eq_breakDown.mp hfault
  exact (sizeFaults_reserve _ _).bind (fun _ ↦ sizeFaults_ok _) fault hrow

/-- The absorption over points breaks down only by size. -/
theorem sizeFaults_absorptionTable (points : List (KPoint α)) :
    SizeFaults (ctx.absorptionTable points) := by
  refine SizeFaults.bind ?_ fun _ ↦ sizeFaults_ok _
  unfold Absorption.spectrum
  dsimp only
  split
  · exact sizeFaults_ok _
  · exact (sizeFaults_validateSpectrum _ _ _ _).bind fun _ ↦
      (sizeFaults_evaluate _ _ _).bind fun _ ↦ sizeFaults_ok _

/-- The conductivity over points breaks down only by size. -/
theorem sizeFaults_conductivityTable (points : List (KPoint α)) :
    SizeFaults (ctx.conductivityTable points) := by
  refine SizeFaults.bind ?_ fun _ ↦ sizeFaults_ok _
  unfold Conductivity.spectrum
  dsimp only
  split
  · exact sizeFaults_ok _
  · exact (sizeFaults_validateSpectrum _ _ _ _).bind fun _ ↦
      (sizeFaults_evaluate _ _ _).bind fun _ ↦ sizeFaults_ok _

variable {quantity : Quantity} {density : ℕ} {compute : Logged (List (List α))}

/-- What is stored breaks down only if there are too many points or rows. -/
theorem TaskContext.Stores.sizeFaults (h : ctx.Stores quantity density compute) :
    SizeFaults compute.result := by
  cases h with
  | energies =>
      refine sizeFaults_run_bind (fun _ ↦ sizeFaults_grid) (fun points ↦ ?_) _
      exact sizeFaults_run_bind (fun _ ↦ sizeFaults_ok _) fun _ _ ↦ sizeFaults_evaluate _ _ _
  | bands =>
      refine sizeFaults_run_bind (fun _ ↦ sizeFaults_ok _) (fun _ _ ↦ ?_) _
      exact (collect_serial (List.Perm.refl _)).sizeFaults.bind fun _ ↦ sizeFaults_ok _
  | absorption =>
      refine sizeFaults_run_bind (fun _ ↦ sizeFaults_grid) (fun points ↦ ?_) _
      have htable : ∀ log, SizeFaults ((liftM (ctx.absorptionTable points) : Logged _) log).1 :=
        fun _ ↦ sizeFaults_absorptionTable points
      split
      · refine sizeFaults_run_bind (fun _ ↦ sizeFaults_validateSpectrum _ _ _ _) fun _ ↦ ?_
        refine sizeFaults_run_bind (fun _ ↦ sizeFaults_ok _) fun _ ↦ ?_
        exact sizeFaults_run_bind (fun _ ↦ sizeFaults_ok _) fun _ ↦ htable
      · exact htable
  | conductivity =>
      refine sizeFaults_run_bind (fun _ ↦ sizeFaults_grid) (fun points ↦ ?_) _
      have htable : ∀ log, SizeFaults ((liftM (ctx.conductivityTable points) : Logged _) log).1 :=
        fun _ ↦ sizeFaults_conductivityTable points
      split
      · refine sizeFaults_run_bind (fun _ ↦ sizeFaults_validateSpectrum _ _ _ _) fun _ ↦ ?_
        exact sizeFaults_run_bind (fun _ ↦ sizeFaults_ok _) fun _ ↦ htable
      · exact htable
  | raman =>
      refine sizeFaults_run_bind (fun _ ↦ sizeFaults_validate _ _) (fun _ ↦ ?_) _
      refine sizeFaults_run_bind (fun _ ↦ sizeFaults_ok _) fun _ ↦ ?_
      refine sizeFaults_run_bind (fun _ ↦ sizeFaults_ok _) fun _ ↦ ?_
      refine sizeFaults_run_bind (fun _ ↦ ?_) fun rows ↦ ?_
      · exact (sizeFaults_validate _ _).bind fun _ ↦ sizeFaults_evaluate _ _ _
      · exact sizeFaults_run_bind (fun _ ↦ sizeFaults_reserve _ _) fun _ _ ↦ sizeFaults_splitRows _

end

/-! ## Unpacking a table -/

/-- A table is unpacked without a breakdown unless it has more empty rows than memory holds. -/
theorem StoredArray.toRows_eq_breakDown {α : Type} {array : StoredArray α} {fault : Fault} :
    array.toRows = breakDown fault ↔ ∃ count, array.shape = [count, 0] ∧
      memoryLimit ≤ count * rowSize ∧ fault = .capacityOverflow := by
  unfold toRows
  split
  next count hshape =>
    rw [bind_eq_breakDown, reserve, hshape]
    split
    next hfew => simpa [breakDown, pure, Except.pure] using fun hmany ↦ absurd hmany hfew.not_ge
    next hmany => simp [breakDown, not_lt.mp hmany, eq_comm]
  next count width hwidth hshape =>
    simpa [breakDown, pure, Except.pure, hshape] using fun hzero ↦ absurd hzero hwidth
  next hempty hrank =>
    simpa [breakDown, fail] using fun count hshape ↦ absurd hshape (hempty count)

/-! ## Raman amplitudes -/

section

variable {α : Type}

/-- Reading Raman rows back fails with an error at most, without a breakdown. -/
theorem mapM_ramanRow_ne_breakDown {key : String} {rows : List (List α)} {fault : Fault} :
    rows.mapM (ramanRow key) ≠ breakDown fault := by
  intro h
  obtain ⟨before, row, after, -, -, hrow⟩ := mapM_eq_breakDown.mp h
  unfold ramanRow at hrow
  split at hrow <;> cases hrow

variable [Scalar α]

namespace Raman

/-- The spectrum of rows in which real and imaginary parts of amplitudes take turns. -/
def ofRows (key : String) (area : α) (rows : List (List α)) : Outcome (RamanSpectrum α) := do
  let terms ← rows.mapM (ramanRow key)
  ofTerms terms area

/-- A column can be summed if every row reaches it. -/
theorem column_eq {rows : List (List (Cplx α))} {i : ℕ} (h : ∀ row ∈ rows, i < row.length) :
    (do
      let column ← rows.mapM fun row ↦ entry row i
      return Cplx.sum column : Outcome (Cplx α)) =
      .ok (Cplx.sum (rows.map fun row ↦ row.getD i Cplx.zero)) :=
  bind_eq_ok.mpr ⟨_, mapM_entry Cplx.zero h, rfl⟩

/-- The sums of a table whose rows are of one width. -/
theorem ofTerms_eq {rows : List (List (Cplx α))} {width : ℕ} (hne : rows ≠ [])
    (hwidth : ∀ row ∈ rows, row.length = width) (area : α) : ofTerms rows area = .ok
      { perK := rows.map Cplx.sum
        perTransition := (List.range width).map fun i ↦
          Cplx.sum (rows.map fun row ↦ row.getD i Cplx.zero)
        intensity := (Cplx.sum (rows.map Cplx.sum)).normSq / Number.square area } := by
  have hhead : (rows.head?.map List.length).getD 0 = width := by
    obtain ⟨row, others, rfl⟩ := List.exists_cons_of_ne_nil hne
    exact hwidth row List.mem_cons_self
  refine bind_eq_ok.mpr ⟨_, mapM_eq_ok ?_, rfl⟩
  rw [hhead, List.map_map]
  refine List.map_congr_left fun i hi ↦ (column_eq fun row hrow ↦ ?_).symm
  rw [hwidth row hrow]
  exact List.mem_range.mp hi

/-- Rows that are all as long as the first one can be summed. -/
theorem ofTerms_ne_breakDown {rows : List (List (Cplx α))} {width : ℕ}
    (h : ∀ row ∈ rows, row.length = width) (area : α) (fault : Fault) :
    ofTerms rows area ≠ breakDown fault := by
  cases rows with
  | nil => nofun
  | cons row rows =>
      rw [ofTerms_eq (List.cons_ne_nil row rows) h]
      nofun

/-- Where the last row ends the sum over a column breaks down, if the other rows are longer. -/
theorem ofTerms_short {full : List (List (Cplx α))} {last : List (Cplx α)} {width : ℕ}
    (hfull : ∀ row ∈ full, row.length = width) (hne : full ≠ []) (hlast : last.length < width)
    (area : α) : ofTerms (full ++ [last]) area =
      breakDown (.indexOutOfBounds last.length last.length) := by
  have hwidth : ((full ++ [last]).head?.map List.length).getD 0 = width := by
    obtain ⟨first, others, rfl⟩ := List.exists_cons_of_ne_nil hne
    exact hfull first List.mem_cons_self
  obtain ⟨more, rfl⟩ := Nat.exists_eq_add_of_lt hlast
  have hrange : List.range (last.length + more + 1) = List.range last.length ++
      last.length :: (List.range more).map (last.length + 1 + ·) := by
    rw [Nat.add_assoc, List.range_add, List.range_succ_eq_map]
    simp only [List.map_cons, List.map_map, Nat.add_zero]
    refine congrArg _ (congrArg _ (List.map_congr_left fun i _ ↦ ?_))
    simp only [Function.comp_apply]
    omega
  -- Every row reaches the columns in front of the end of the last one.
  have hbefore : ∀ i ∈ List.range last.length, ∀ row ∈ full ++ [last], i < row.length := by
    intro i hi row hrow
    rw [List.mem_range] at hi
    rcases List.mem_append.mp hrow with hrow | hrow
    · rw [hfull row hrow]
      omega
    · rwa [List.mem_singleton.mp hrow]
  have hend : (full ++ [last]).mapM (entry · last.length) =
      breakDown (.indexOutOfBounds last.length last.length) := by
    refine mapM_eq_error (fun row hrow ↦ ⟨_, entry_getD Cplx.zero ?_⟩) (entry_eq_breakDown le_rfl)
    rw [hfull row hrow]
    exact hlast
  unfold ofTerms
  dsimp only
  rw [hwidth, hrange, mapM_eq_error (fun i hi ↦ ⟨_, column_eq (hbefore i hi)⟩)
    (bind_eq_breakDown.mpr (Or.inl hend))]
  rfl

/-- Amplitudes in rows of one width are summed. -/
theorem ofRows_ne_breakDown {rows : List (List α)} {width : ℕ}
    (h : ∀ row ∈ rows, row.length = width) (key : String) (area : α) (fault : Fault) :
    ofRows key area rows ≠ breakDown fault := by
  intro hfault
  rcases bind_eq_breakDown.mp hfault with hterms | ⟨terms, hterms, hfault⟩
  · exact mapM_ramanRow_ne_breakDown hterms
  · obtain ⟨-, rfl⟩ := mapM_ramanRow_eq_ok.mp hterms
    have hterms : ∀ terms ∈ rows.map pairParts, terms.length = width / 2 := by
      intro terms hmem
      obtain ⟨row, hrow, rfl⟩ := List.mem_map.mp hmem
      rw [length_pairParts, h row hrow]
    exact ofTerms_ne_breakDown hterms area fault hfault

/-- Amplitudes are not summed if the last row is shorter than the others. -/
theorem ofRows_short {full : List (List α)} {last : List α} {width : ℕ}
    (hfull : ∀ row ∈ full, row.length = width) (hne : full ≠ []) (hlast : last.length < width)
    {key : String} {area : α} {fault : Fault} :
    ofRows key area (full ++ [last]) = breakDown fault ↔ width % 2 = 0 ∧ last.length % 2 = 0 ∧
      fault = .indexOutOfBounds (last.length / 2) (last.length / 2) := by
  have hbreak : width % 2 = 0 → last.length % 2 = 0 → ofRows key area (full ++ [last]) =
      breakDown (.indexOutOfBounds (last.length / 2) (last.length / 2)) := by
    intro hwidth hleft
    have heven : ∀ row ∈ full ++ [last], row.length % 2 = 0 := by
      intro row hrow
      rcases List.mem_append.mp hrow with hrow | hrow
      · rw [hfull row hrow, hwidth]
      · rw [List.mem_singleton.mp hrow, hleft]
    have hhalves : ∀ row ∈ full.map pairParts, row.length = width / 2 := by
      intro row hrow
      obtain ⟨whole, hwhole, rfl⟩ := List.mem_map.mp hrow
      rw [length_pairParts, hfull whole hwhole]
    have hshort : (pairParts last).length < width / 2 := by
      rw [length_pairParts]
      omega
    refine bind_eq_breakDown.mpr (Or.inr ⟨_, mapM_ramanRow_eq_ok.mpr ⟨heven, rfl⟩, ?_⟩)
    rw [List.map_append, List.map_singleton, ofTerms_short hhalves (by simpa using hne) hshort,
      length_pairParts]
  constructor
  · intro hfault
    rcases bind_eq_breakDown.mp hfault with hterms | ⟨terms, hterms, -⟩
    · exact absurd hterms mapM_ramanRow_ne_breakDown
    obtain ⟨heven, -⟩ := mapM_ramanRow_eq_ok.mp hterms
    obtain ⟨first, hfirst⟩ := List.exists_mem_of_ne_nil full hne
    have hwidth : width % 2 = 0 := by
      rw [← hfull first hfirst]
      exact heven first (List.mem_append_left _ hfirst)
    have hleft : last.length % 2 = 0 := heven last (by simp)
    rw [hbreak hwidth hleft] at hfault
    cases hfault
    exact ⟨hwidth, hleft, rfl⟩
  · rintro ⟨hwidth, hleft, rfl⟩
    exact hbreak hwidth hleft

end Raman

/-- The table has an even width, and it ends with a row that is shorter than those in front of it
but whose width, `left`, is even as well. -/
structure StoredArray.EndsShort (array : StoredArray α) (left : ℕ) : Prop where
  table : ∃ count width, array.shape = [count, width] ∧ 0 < width ∧ width % 2 = 0 ∧
    width < array.data.length ∧ array.data.length % width = left
  pos : 0 < left
  even : left % 2 = 0

omit [Scalar α] in
/-- An array that ends with a short row can still be read as rows. -/
theorem StoredArray.EndsShort.toRows_eq_ok {array : StoredArray α} {left : ℕ}
    (h : array.EndsShort left) : ∃ rows, array.toRows = .ok rows := by
  obtain ⟨count, width, hshape, hpos, -⟩ := h.table
  obtain ⟨less, rfl⟩ := Nat.exists_eq_succ_of_ne_zero hpos.ne'
  refine ⟨chunksOf less.succ array.data, ?_⟩
  rw [StoredArray.toRows, hshape]
  rfl

/-- Stored amplitudes are summed, or refused with an error, unless the last row is shorter than the
others and has no half of an amplitude at its end. -/
theorem Raman.ofRows_toRows {array : StoredArray α} {rows : List (List α)}
    (hrows : array.toRows = .ok rows) (key : String) (area : α) (fault : Fault) :
    Raman.ofRows key area rows = breakDown fault ↔
      ∃ left, array.EndsShort left ∧ fault = .indexOutOfBounds (left / 2) (left / 2) := by
  -- Rows of one width have no breakdown, and the table does not end short.
  have hequal : ∀ width, (∀ row ∈ rows, row.length = width) → (∀ left, ¬ array.EndsShort left) →
      (Raman.ofRows key area rows = breakDown fault ↔
        ∃ left, array.EndsShort left ∧ fault = .indexOutOfBounds (left / 2) (left / 2)) :=
    fun width hwidth hshort ↦
      ⟨fun hfault ↦ absurd hfault (ofRows_ne_breakDown hwidth key area fault),
        fun ⟨left, hleft, _⟩ ↦ absurd hleft (hshort left)⟩
  unfold StoredArray.toRows at hrows
  split at hrows
  next count hshape =>
    obtain ⟨_, -, hrows⟩ := bind_eq_ok.mp hrows
    cases hrows
    refine hequal 0 (by simp) fun left hleft ↦ ?_
    obtain ⟨_, width, htable, hwidth, -⟩ := hleft.table
    rw [hshape] at htable
    cases htable
    exact absurd hwidth (lt_irrefl 0)
  next count width hzero hshape =>
    cases hrows
    have hpos : 0 < width := Nat.pos_of_ne_zero hzero
    obtain ⟨full, rest, hchunks, hfull, hlength, hrest⟩ := exists_chunksOf hpos array.data
    rw [hchunks] at hequal ⊢
    have htable : ∀ left, array.EndsShort left → width % 2 = 0 ∧ width < array.data.length ∧
        array.data.length % width = left := by
      intro left hleft
      obtain ⟨_, _, htable, -, heven, hlong, hmod⟩ := hleft.table
      rw [hshape] at htable
      cases htable
      exact ⟨heven, hlong, hmod⟩
    rcases hrest with ⟨hmod, rfl⟩ | ⟨row, rfl, hrow, hne⟩
    · refine hequal width (by simpa using hfull) fun left hleft ↦ ?_
      have hpos := hleft.pos
      rw [← (htable left hleft).2.2, hmod] at hpos
      exact lt_irrefl 0 hpos
    · have hrowPos := List.length_pos_of_ne_nil hne
      by_cases hnone : full = []
      · refine hequal row.length (by simp [hnone]) fun left hleft ↦ ?_
        rw [hnone, List.length_nil, eq_comm, Nat.div_eq_zero_iff] at hlength
        have := (htable left hleft).2.1
        omega
      · have hlong : width < array.data.length := by
          have hfullPos := List.length_pos_of_ne_nil hnone
          rw [hlength] at hfullPos
          refine lt_of_le_of_ne (Nat.div_pos_iff.mp hfullPos).2 fun heq ↦ ?_
          rw [hrow, ← heq, Nat.mod_self] at hrowPos
          exact lt_irrefl 0 hrowPos
        rw [ofRows_short hfull hnone (by rw [hrow]; exact Nat.mod_lt _ hpos)]
        constructor
        · rintro ⟨hwidth, hleft, rfl⟩
          exact ⟨row.length, ⟨⟨count, width, hshape, hpos, hwidth, hlong, hrow.symm⟩, hrowPos,
            hleft⟩, rfl⟩
        · rintro ⟨left, hleft, rfl⟩
          obtain ⟨hwidth, -, hmod⟩ := htable left hleft
          have heven := hleft.even
          rw [hrow, hmod]
          exact ⟨hwidth, heven, rfl⟩
  next => cases hrows

/-! ## Medians -/

variable {fault : Fault} {sort : Sorter α}

/-- A median breaks down where the sort stops: the middle of what was sorted is there. -/
theorem median_eq_breakDown (hsort : sort.Lawful) {values : List α} :
    median sort values = breakDown fault ↔
      sort values = none ∧ fault = .inconsistentOrder := by
  by_cases hnil : values = []
  · subst hnil
    rw [hsort.sorts (by simp)]
    constructor
    · intro hfault
      cases hfault
    · rintro ⟨hnone, -⟩
      cases hnone
  · rw [median, if_neg (by simpa using hnil)]
    cases hsorted : sort values with
    | none => simp [breakDown, eq_comm]
    | some sorted =>
        have hlength : 0 < sorted.length := by
          rw [(hsort.perm hsorted).length_eq]
          exact List.length_pos_of_ne_nil hnil
        have hmid : sorted.length / 2 < sorted.length := Nat.div_lt_self hlength one_lt_two
        have hbelow : sorted.length / 2 - 1 < sorted.length := by omega
        dsimp only
        rw [entry_getD 0 hmid, entry_getD 0 hbelow]
        constructor
        · intro hfault
          split at hfault <;> cases hfault
        · rintro ⟨hnone, -⟩
          cases hnone

/-- A band structure breaks down where its median does, if it is shifted to it. -/
theorem BandStructure.ofPathEnergies_eq_breakDown (hsort : sort.Lawful) {energies : List (List α)}
    {labels : List String} {labelPositions : List ℕ} {shifted : Bool} :
    ofPathEnergies sort energies labels labelPositions shifted = breakDown fault ↔
      shifted = true ∧ sort energies.flatten = none ∧ fault = .inconsistentOrder := by
  cases shifted with
  | true =>
      rw [ofPathEnergies, if_pos rfl, bind_eq_breakDown, median_eq_breakDown hsort]
      simp [pure, Except.pure, breakDown]
  | false => simp [ofPathEnergies, breakDown, bind, Except.bind, pure, Except.pure]

/-! ## Densities and differences -/

/-- The bins have a range, but there are more of them than memory holds the edges of. -/
structure Histogram.Overflows (values : List α) (bins : ℕ) (range : Option (α × α)) : Prop extends
    Histogram.Valid values bins range where
  memory : memoryLimit ≤ (bins + 1) * 8

variable {bins : ℕ} {range : Option (α × α)}

/-- A histogram breaks down only when there is no memory for its bins. -/
theorem Histogram.create_eq_breakDown {values : List α} :
    create values bins range = breakDown fault ↔
      Overflows values bins range ∧ fault = .capacityOverflow := by
  by_cases hvalid : Valid values bins range
  · rw [create_of_valid hvalid, bind_eq_breakDown, reserve_eq_breakDown]
    constructor
    · rintro (⟨hmemory, hfault⟩ | ⟨_, -, hdone⟩)
      · exact ⟨⟨hvalid, hmemory⟩, hfault⟩
      · cases hdone
    · exact fun ⟨hoverflows, hfault⟩ ↦ Or.inl ⟨hoverflows.memory, hfault⟩
  · obtain ⟨cause, hcause⟩ := create_of_not_valid hvalid
    rw [hcause]
    constructor
    · intro hfault
      cases hfault
    · exact fun h ↦ absurd h.1.toValid hvalid

/-- A density breaks down where its histogram does: a histogram that is there has a width. -/
theorem ofSamples_eq_breakDown {samples : List α} {points : ℕ} {area : α} :
    DensityOfStates.ofSamples samples points bins range area = breakDown fault ↔
      points ≠ 0 ∧ Histogram.Overflows samples bins range ∧ fault = .capacityOverflow := by
  unfold DensityOfStates.ofSamples
  dsimp only
  split
  next hzero => simpa [hzero] using nofun
  next hpoints =>
    rw [bind_eq_breakDown, Histogram.create_eq_breakDown]
    constructor
    · rintro (hcreate | ⟨histogram, hcreate, hdone⟩)
      · exact ⟨hpoints, hcreate⟩
      · obtain ⟨hvalid, -, rfl⟩ := Histogram.create_eq_ok.mp hcreate
        rw [Histogram.binWidth_ofEnds _ hvalid.bins_ne_zero] at hdone
        cases hdone
    · exact fun h ↦ Or.inl h.2

/-- The pairs of bands break down where a row has more of them than memory can hold. -/
theorem mapM_transitionEnergies_eq_breakDown {rows : List (List α)} {gap : ℕ} :
    rows.mapM (transitionEnergies · gap) = breakDown fault ↔
      (∃ row ∈ rows, memoryLimit ≤ pairCount row gap * 8) ∧ fault = .capacityOverflow := by
  have hrow (row : List α) : transitionEnergies row gap = breakDown fault ↔
      memoryLimit ≤ pairCount row gap * 8 ∧ fault = .capacityOverflow := by
    rw [transitionEnergies, bind_eq_breakDown, reserve_eq_breakDown]
    refine or_iff_left ?_
    rintro ⟨_, -, hdone⟩
    cases hdone
  constructor
  · intro h
    obtain ⟨before, row, after, rfl, -, hrow'⟩ := mapM_eq_breakDown.mp h
    obtain ⟨hroom, hfault⟩ := (hrow row).mp hrow'
    exact ⟨⟨row, by simp, hroom⟩, hfault⟩
  · rintro ⟨⟨row, hmem, hroom⟩, rfl⟩
    rcases succeeds_or_first_failure (transitionEnergies · gap) rows with
      hall | ⟨before, first, after, cause, rfl, hbefore, hfirst⟩
    · obtain ⟨value, hvalue⟩ := hall row hmem
      cases hvalue.symm.trans ((hrow row).mpr ⟨hroom, rfl⟩)
    · refine mapM_eq_breakDown.mpr ⟨before, first, after, rfl, hbefore, (hrow first).mpr ⟨?_, rfl⟩⟩
      by_contra hsmall
      cases hfirst.symm.trans (transitionEnergies_eq_ok (not_le.mp hsmall))

omit [Scalar α] in
/-- The valence count breaks down only on the lower end that has no opposite. -/
theorem valenceCount_eq_breakDown {window : BandWindow} : window.valenceCount = breakDown fault ↔
    Word.signed64.holds (-window.lower) = false ∧ fault = .overflow .negate := by
  unfold BandWindow.valenceCount
  rw [bind_eq_breakDown, Word.neg, Word.check]
  split
  next hholds => simp [hholds, pure, Except.pure, breakDown]
  next hholds => simp [Bool.eq_false_of_not_eq_true hholds, breakDown, eq_comm]

/-- The index of a band above the gap is no count, although the bands are asked for correctly. -/
structure PairOverflows (gap valence conduction : ℕ) : Prop where
  valence_ne_zero : valence ≠ 0
  conduction_ne_zero : conduction ≠ 0
  valence_le : valence ≤ gap
  stop : countLimit ≤ gap + conduction

/-- The bands that are asked for are checked in the same way for each row. -/
theorem pairDifference_eq_breakDown {window : BandWindow} {gap valence conduction : ℕ}
    (row : List α) : pairDifference window gap valence conduction row = breakDown fault ↔
      PairOverflows gap valence conduction ∧ fault = .overflow .add := by
  unfold pairDifference
  dsimp only
  split
  next hrefused =>
    constructor
    · intro hfault
      cases hfault
    · rintro ⟨hoverflows, -⟩
      rcases hrefused with hzero | hzero | hbelow
      · exact absurd hzero hoverflows.valence_ne_zero
      · exact absurd hzero hoverflows.conduction_ne_zero
      · exact absurd hoverflows.valence_le hbelow.not_ge
  next hasked =>
    rw [not_or, not_or] at hasked
    rw [bind_eq_breakDown, addCount]
    split
    next hcount =>
      constructor
      · rintro (hstop | ⟨stop, hstop, hdone⟩)
        · cases hstop
        · cases hstop
          split at hdone
          · cases hdone
          next hin =>
            have hupper : gap + conduction - 1 < row.length := by omega
            have hlower : gap - valence < row.length := by omega
            rw [entry_eq_ok (List.getElem?_eq_getElem hupper),
              entry_eq_ok (List.getElem?_eq_getElem hlower)] at hdone
            cases hdone
      · exact fun h ↦ absurd h.1.stop hcount.not_ge
    next hcount =>
      constructor
      · rintro (hstop | ⟨stop, hstop, -⟩)
        · cases hstop
          exact ⟨⟨hasked.1, hasked.2.1, not_lt.mp hasked.2.2, not_lt.mp hcount⟩, rfl⟩
        · cases hstop
      · rintro ⟨-, rfl⟩
        exact Or.inl rfl

/-- The differences break down where the valence count does, or, if there are rows, on the index of
the conduction band. -/
theorem energyDifferences_eq_breakDown {rows : List (List α)} {window : BandWindow}
    {valence conduction : ℕ} : energyDifferences rows window valence conduction = breakDown fault ↔
      window.valenceCount = breakDown fault ∨ ∃ gap, window.valenceCount = .ok gap ∧ rows ≠ [] ∧
        PairOverflows gap valence conduction ∧ fault = .overflow .add := by
  unfold energyDifferences
  rw [bind_eq_breakDown]
  refine or_congr_right (exists_congr fun gap ↦ and_congr_right fun _ ↦ ?_)
  rw [mapM_eq_breakDown]
  constructor
  · rintro ⟨before, row, after, rfl, -, hrow⟩
    exact ⟨by simp, (pairDifference_eq_breakDown row).mp hrow⟩
  · rintro ⟨hne, hoverflows⟩
    obtain ⟨row, rows, rfl⟩ := List.exists_cons_of_ne_nil hne
    exact ⟨[], row, rows, rfl, by simp, (pairDifference_eq_breakDown row).mpr hoverflows⟩

end

end Moire
