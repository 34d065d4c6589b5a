import Mathlib.Tactic
import Moire.Proofs.Evaluation
import Moire.Run.Task

/-!
# Tables and arrays

A table is packed into an array if its rows are equally long, `StoredArray.ofRows_eq_ok_iff`, and
otherwise the first row that differs from the one at the top is reported. What was packed is
unpacked again (`StoredArray.toRows_ofRows`), and so is every array whose shape has two entries and
fits its numbers (`StoredArray.toRows_of_create`). Only empty rows can be too many for that, since
an array of them has no numbers. Complex tables go through the same arrays with their parts in turn
(`pairParts_splitParts`). `StoredArray.round_trips` collects the ways there and back.
-/

namespace Moire

variable {α : Type}

/-! ## Cutting a list into rows -/

/-- Rows of one positive width are cut out again of the list of their entries. -/
theorem chunksOf_flatten {width : ℕ} (hwidth : 0 < width) {rows : List (List α)}
    (h : ∀ row ∈ rows, row.length = width) : chunksOf width rows.flatten = rows := by
  induction rows with
  | nil => rw [List.flatten_nil, chunksOf]
  | cons row rows ih =>
      rw [List.forall_mem_cons] at h
      cases row with
      | nil => simp at h; omega
      | cons item rest =>
          have hrest : rest.length = width - 1 := by
            have := h.1
            rw [List.length_cons] at this
            omega
          rw [List.flatten_cons, List.cons_append, chunksOf, if_neg hwidth.ne',
            ← hrest, List.take_left, List.drop_left, ih h.2]

/-- The pieces of a list make it up. -/
theorem flatten_chunksOf {width : ℕ} (hwidth : 0 < width) (items : List α) :
    (chunksOf width items).flatten = items := by
  fun_induction chunksOf width items with
  | case1 => rfl
  | case2 item rest hzero => exact absurd hzero hwidth.ne'
  | case3 item rest hpos ih =>
      rw [List.flatten_cons, ih, List.cons_append, List.take_append_drop]

/-- A list is cut into pieces of the full width and a shorter one for what is left. -/
theorem exists_chunksOf {width : ℕ} (hwidth : 0 < width) (items : List α) :
    ∃ full rest, chunksOf width items = full ++ rest ∧ (∀ row ∈ full, row.length = width) ∧
      full.length = items.length / width ∧
      (items.length % width = 0 ∧ rest = [] ∨
        ∃ row, rest = [row] ∧ row.length = items.length % width ∧ row ≠ []) := by
  fun_induction chunksOf width items with
  | case1 => exact ⟨[], [], rfl, by simp⟩
  | case2 item rest hzero => exact absurd hzero hwidth.ne'
  | case3 item rest hpos ih =>
      obtain ⟨full, last, hchunks, hfull, hlength, hlast⟩ := ih
      by_cases hshort : rest.length + 1 < width
      · have hdrop : rest.drop (width - 1) = [] := List.drop_eq_nil_of_le (by omega)
        have htake : rest.take (width - 1) = rest := List.take_of_length_le (by omega)
        refine ⟨[], [item :: rest], ?_, by simp, ?_, Or.inr ⟨_, rfl, ?_, by simp⟩⟩
        · rw [hdrop, htake, chunksOf, List.nil_append]
        · rw [List.length_cons, Nat.div_eq_of_lt hshort, List.length_nil]
        · rw [List.length_cons, Nat.mod_eq_of_lt hshort]
      · have hrest : (item :: rest).length = (rest.drop (width - 1)).length + width := by
          rw [List.length_cons, List.length_drop]
          omega
        refine ⟨(item :: rest.take (width - 1)) :: full, last, ?_, ?_, ?_, ?_⟩
        · rw [hchunks, List.cons_append]
        · rw [List.forall_mem_cons]
          refine ⟨?_, hfull⟩
          rw [List.length_cons, List.length_take]
          omega
        · rw [List.length_cons, hlength, hrest, Nat.add_div_right _ hwidth]
        · rw [hrest, Nat.add_mod_right]
          exact hlast

/-! ## The shape of a table -/

/-- All rows are equally long. -/
def Rectangular (rows : List (List α)) : Prop :=
  ∀ row ∈ rows, ∀ other ∈ rows, row.length = other.length

/-- The row at the top, and the first one that is not as long. -/
def FirstUnequal (rows : List (List α)) (top row : List α) : Prop :=
  ∃ before after, rows = top :: (before ++ row :: after) ∧
    (∀ other ∈ before, other.length = top.length) ∧ row.length ≠ top.length

/-- The rows and the entries of a table can be counted. -/
def Counted (rows : List (List α)) : Prop :=
  rows.length < countLimit ∧ rows.flatten.length < countLimit

/-- Rows are rectangular just if all are as long as the first. -/
theorem rectangular_iff {rows : List (List α)} :
    Rectangular rows ↔ ∀ row ∈ rows, row.length = (rows.head?.map List.length).getD 0 := by
  cases rows with
  | nil => simp [Rectangular]
  | cons top rest =>
      refine ⟨fun h row hrow ↦ h row hrow top List.mem_cons_self, fun h row hrow other hother ↦ ?_⟩
      rw [h row hrow, h other hother]

/-- A table whose rows are not equally long has a first one that differs from the top. -/
theorem exists_firstUnequal {rows : List (List α)} (h : ¬ Rectangular rows) :
    ∃ top row, FirstUnequal rows top row := by
  cases rows with
  | nil => exact absurd (by simp [Rectangular]) h
  | cons top rest =>
      have hsome : (rest.find? fun row ↦ row.length ≠ top.length).isSome = true := by
        rw [List.find?_isSome]
        by_contra hall
        refine h (rectangular_iff.mpr fun row hrow ↦ ?_)
        rcases List.mem_cons.mp hrow with rfl | hrow
        · rfl
        · by_contra hne
          exact hall ⟨row, hrow, by simpa using hne⟩
      obtain ⟨row, hrow⟩ := Option.isSome_iff_exists.mp hsome
      obtain ⟨hne, before, after, rfl, hbefore⟩ := List.find?_eq_some_iff_append.mp hrow
      exact ⟨top, row, before, after, rfl, by simpa using hbefore, by simpa using hne⟩

/-- Rows of one width have as many entries as the product says. -/
theorem length_flatten_of_forall {rows : List (List α)} {width : ℕ}
    (h : ∀ row ∈ rows, row.length = width) : rows.flatten.length = rows.length * width := by
  rw [List.length_flatten, List.map_congr_left h, List.map_const', List.sum_replicate, smul_eq_mul]

/-! ## Packing -/

/-- A product of counts is there just if it is a count. -/
theorem mulCount_eq_ok_iff {x y product : ℕ} :
    mulCount x y = .ok product ↔ x * y < countLimit ∧ product = x * y := by
  unfold mulCount
  split
  next h => simp [h, eq_comm]
  next h => simp [h, breakDown]

namespace StoredArray

/-- An array with a shape of two entries is accepted if the shape fits its numbers. -/
theorem create_eq_ok_iff {count width : ℕ} {data : List α} {array : StoredArray α} :
    create [count, width] data = .ok array ↔
      count < countLimit ∧ data.length < countLimit ∧ count * width = data.length ∧
        array = ⟨[count, width], data⟩ := by
  have hproduct : [count, width].foldlM mulCount 1 =
      mulCount 1 count >>= fun rows ↦ mulCount rows width := by
    simp
  rw [create, hproduct, bind_eq_ok]
  constructor
  · rintro ⟨expected, hexpected, h⟩
    obtain ⟨rows, hrows, hentries⟩ := bind_eq_ok.mp hexpected
    obtain ⟨hcount, rfl⟩ := mulCount_eq_ok_iff.mp hrows
    obtain ⟨hlimit, rfl⟩ := mulCount_eq_ok_iff.mp hentries
    rw [one_mul] at *
    by_cases hlength : count * width = data.length
    · rw [if_neg (not_not.mpr hlength)] at h
      cases h
      exact ⟨hcount, hlength ▸ hlimit, hlength, rfl⟩
    · rw [if_pos hlength] at h
      cases h
  · rintro ⟨hcount, hlimit, hlength, rfl⟩
    refine ⟨count * width, bind_eq_ok.mpr ⟨count, ?_, ?_⟩, ?_⟩
    · exact mulCount_eq_ok_iff.mpr (by simpa using hcount)
    · exact mulCount_eq_ok_iff.mpr ⟨hlength ▸ hlimit, rfl⟩
    · rw [if_neg (not_not.mpr hlength)]
      rfl

/-- A table whose rows are not equally long is refused for the first one that differs. -/
theorem ofRows_of_firstUnequal {rows : List (List α)} {top row : List α}
    (h : FirstUnequal rows top row) :
    ofRows rows = fail (.dimensionMismatch "cached rows" top.length row.length) := by
  obtain ⟨before, after, rfl, hbefore, hne⟩ := h
  set rows := top :: (before ++ row :: after)
  have hwidth : (rows.head?.map List.length).getD 0 = top.length := rfl
  have hfind : rows.find? (fun other ↦ other.length ≠ top.length) = some row := by
    refine List.find?_eq_some_iff_append.mpr ⟨by simpa using hne, top :: before, after, rfl, ?_⟩
    simpa using hbefore
  unfold ofRows
  dsimp only
  rw [hwidth, hfind]

/-- A table is packed if its rows are equally long. -/
theorem ofRows_eq_ok_iff {rows : List (List α)} {array : StoredArray α} :
    ofRows rows = .ok array ↔ Rectangular rows ∧ Counted rows ∧
      array = ⟨[rows.length, (rows.head?.map List.length).getD 0], rows.flatten⟩ := by
  by_cases hrows : Rectangular rows
  · have hwidth := rectangular_iff.mp hrows
    have hfind :
        rows.find? (fun row ↦ row.length ≠ (rows.head?.map List.length).getD 0) = none := by
      simpa using hwidth
    have hpack : ofRows rows =
        create [rows.length, (rows.head?.map List.length).getD 0] rows.flatten := by
      unfold ofRows
      dsimp only
      rw [hfind]
    rw [hpack, create_eq_ok_iff]
    simp only [hrows, length_flatten_of_forall hwidth, Counted, true_and, and_assoc]
  · obtain ⟨top, row, hunequal⟩ := exists_firstUnequal hrows
    rw [ofRows_of_firstUnequal hunequal]
    simp [hrows, fail]

end StoredArray

/-! ## Unpacking -/

/-- The rows can be told from their flat list and their number: none of them is empty, or there are
not too many of them. -/
def Fits (rows : List (List α)) : Prop :=
  (∀ row ∈ rows, row ≠ []) ∨ rows.length * StoredArray.rowSize < memoryLimit

namespace StoredArray

/-- With a positive width the entries are cut into rows. -/
theorem toRows_of_pos {width : ℕ} (hwidth : 0 < width) (count : ℕ) (data : List α) :
    toRows ⟨[count, width], data⟩ = .ok (chunksOf width data) := by
  obtain ⟨less, rfl⟩ := Nat.exists_eq_succ_of_ne_zero hwidth.ne'
  rfl

/-- With width zero there are as many empty rows as the shape says. -/
theorem toRows_of_empty {count : ℕ} (hfew : count * rowSize < memoryLimit) (data : List α) :
    toRows ⟨[count, 0], data⟩ = .ok (List.replicate count []) := by
  show (reserve count rowSize >>= fun _ ↦ pure (List.replicate count [])) = _
  rw [reserve_eq_ok hfew]
  rfl

/-- Empty rows break down when there is no memory for so many. -/
theorem toRows_of_many {count : ℕ} (hmany : memoryLimit ≤ count * rowSize) (data : List α) :
    toRows ⟨[count, 0], data⟩ = breakDown .capacityOverflow := by
  show (reserve count rowSize >>= fun _ ↦ pure (List.replicate count [])) = _
  rw [reserve, if_neg (not_lt.mpr hmany)]
  rfl

/-- What was packed is unpacked again. -/
theorem toRows_ofRows {rows : List (List α)} {array : StoredArray α}
    (h : ofRows rows = .ok array) (hfits : Fits rows) : array.toRows = .ok rows := by
  obtain ⟨hrectangular, -, rfl⟩ := ofRows_eq_ok_iff.mp h
  have hrows := rectangular_iff.mp hrectangular
  set width := (rows.head?.map List.length).getD 0 with hwidth
  obtain hzero | hpos := Nat.eq_zero_or_pos width
  · have hempty : ∀ row ∈ rows, row = [] := fun row hrow ↦
      List.eq_nil_of_length_eq_zero ((hrows row hrow).trans hzero)
    have hfew : rows.length * rowSize < memoryLimit := by
      obtain hnone | hfew := hfits
      · obtain rfl : rows = [] :=
          List.eq_nil_iff_forall_not_mem.mpr fun row hrow ↦ hnone row hrow (hempty row hrow)
        simp [rowSize, memoryLimit]
      · exact hfew
    rw [hzero, toRows_of_empty hfew, ← List.eq_replicate_of_mem hempty]
  · rw [toRows_of_pos hpos, chunksOf_flatten hpos hrows]

/-- An array that was accepted is unpacked to as many rows as its shape says, each of the width that
it says, with the numbers in their order. Memory may lack room for its rows only if they are
empty. -/
theorem toRows_of_create {count width : ℕ} {data : List α} {array : StoredArray α}
    (h : create [count, width] data = .ok array) :
    (0 < width ∨ count * rowSize < memoryLimit → ∃ rows, array.toRows = .ok rows ∧
      rows.length = count ∧ (∀ row ∈ rows, row.length = width) ∧ rows.flatten = data) ∧
    (width = 0 ∧ memoryLimit ≤ count * rowSize →
      array.toRows = breakDown .capacityOverflow) := by
  obtain ⟨-, -, hlength, rfl⟩ := create_eq_ok_iff.mp h
  constructor
  · intro hroom
    obtain rfl | hpos := Nat.eq_zero_or_pos width
    · have hfew : count * rowSize < memoryLimit := hroom.resolve_left (lt_irrefl 0)
      obtain rfl : data = [] := List.eq_nil_of_length_eq_zero hlength.symm
      refine ⟨_, toRows_of_empty hfew _, List.length_replicate, fun row hrow ↦ ?_, by simp⟩
      rw [List.eq_of_mem_replicate hrow, List.length_nil]
    · obtain ⟨full, rest, hchunks, hfull, hcount, hrest⟩ := exists_chunksOf hpos data
      rw [← hlength, Nat.mul_div_cancel _ hpos] at hcount
      rw [← hlength, Nat.mul_mod_left] at hrest
      -- The numbers come out even, so that no shorter row is left.
      obtain rfl : rest = [] := by
        rcases hrest with ⟨-, hnone⟩ | ⟨row, -, hempty, hne⟩
        · exact hnone
        · exact absurd (List.eq_nil_of_length_eq_zero hempty) hne
      rw [List.append_nil] at hchunks
      refine ⟨full, ?_, hcount, hfull, hchunks ▸ flatten_chunksOf hpos data⟩
      rw [toRows_of_pos hpos, hchunks]
  · rintro ⟨rfl, hmany⟩
    exact toRows_of_many hmany data

end StoredArray

/-! ## Complex tables -/

/-- Two parts make a complex entry. -/
theorem length_pairParts (row : List α) : (pairParts row).length = row.length / 2 := by
  fun_induction pairParts row with
  | case1 re im rest ih =>
      rw [List.length_cons, ih, List.length_cons, List.length_cons]
      omega
  | case2 row hrow =>
      rcases row with _ | ⟨re, _ | ⟨im, rest⟩⟩
      · simp
      · simp
      · exact absurd rfl (hrow re im rest)

/-- Rows are read as amplitudes if the width of each is even. -/
theorem mapM_ramanRow_eq_ok {key : String} {rows : List (List α)} {terms : List (List (Cplx α))} :
    rows.mapM (ramanRow key) = .ok terms ↔
      (∀ row ∈ rows, row.length % 2 = 0) ∧ terms = rows.map pairParts := by
  rw [mapM_eq_ok_iff]
  induction rows generalizing terms with
  | nil => simp
  | cons row rows ih =>
      cases terms with
      | nil => simp
      | cons first terms =>
          simp only [List.map_cons, List.cons.injEq, ih, List.forall_mem_cons, ramanRow]
          by_cases heven : row.length % 2 = 0
          · simp [heven]
            grind
          · simp [heven, fail]

/-- A complex entry makes two parts. -/
theorem length_splitParts (row : List (Cplx α)) : (splitParts row).length = 2 * row.length := by
  induction row with
  | nil => rfl
  | cons z row ih =>
      have hsplit : splitParts (z :: row) = z.re :: z.im :: splitParts row := rfl
      rw [hsplit, List.length_cons, List.length_cons, List.length_cons, ih]
      omega

/-- Parts in turn are paired to the numbers that they are of. -/
theorem pairParts_splitParts (row : List (Cplx α)) : pairParts (splitParts row) = row := by
  induction row with
  | nil => rfl
  | cons z row ih =>
      have hsplit : splitParts (z :: row) = z.re :: z.im :: splitParts row := rfl
      rw [hsplit, pairParts, ih]

/-- Rows are split if memory can hold the parts of each. -/
theorem mapM_splitRow_eq_ok {terms : List (List (Cplx α))} {rows : List (List α)}
    (h : terms.mapM splitRow = .ok rows) :
    (∀ row ∈ terms, 2 * row.length * 8 < memoryLimit) ∧ rows = terms.map splitParts := by
  have hrow {row : List (Cplx α)} {parts : List α} (h : splitRow row = .ok parts) :
      2 * row.length * 8 < memoryLimit ∧ parts = splitParts row := by
    obtain ⟨_, hreserve, h⟩ := bind_eq_ok.mp h
    cases h
    exact ⟨lt_of_reserve hreserve, rfl⟩
  have hrows := mapM_eq_ok_iff.mp h
  constructor
  · intro row hmem
    obtain ⟨parts, -, hparts⟩ := List.mem_map.mp (hrows ▸ List.mem_map_of_mem (f := splitRow) hmem)
    exact (hrow hparts.symm).1
  · refine List.map_injective_iff.mpr (fun _ _ ↦ Except.ok.inj) (hrows.trans ?_)
    rw [List.map_map]
    refine List.map_congr_left fun row hmem ↦ ?_
    obtain ⟨parts, -, hparts⟩ := List.mem_map.mp (hrows ▸ List.mem_map_of_mem (f := splitRow) hmem)
    rw [← hparts, (hrow hparts.symm).2]
    rfl

/-- Rectangular rows stay rectangular when they are split. -/
theorem Rectangular.map_splitParts {terms : List (List (Cplx α))} (h : Rectangular terms) :
    Rectangular (terms.map splitParts) := by
  intro row hrow other hother
  obtain ⟨first, hfirst, rfl⟩ := List.mem_map.mp hrow
  obtain ⟨second, hsecond, rfl⟩ := List.mem_map.mp hother
  rw [length_splitParts, length_splitParts, h first hfirst second hsecond]

/-- Split rows are read back as the complex rows. -/
theorem mapM_ramanRow_splitParts (key : String) (terms : List (List (Cplx α))) :
    (terms.map splitParts).mapM (ramanRow key) = .ok terms := by
  refine mapM_ramanRow_eq_ok.mpr ⟨fun row hrow ↦ ?_, ?_⟩
  · obtain ⟨term, -, rfl⟩ := List.mem_map.mp hrow
    rw [length_splitParts, Nat.mul_mod_right]
  · rw [List.map_map]
    exact (List.map_id'' pairParts_splitParts terms).symm

/-- Rows that are kept are kept when they are split. -/
theorem Fits.map_splitParts {terms : List (List (Cplx α))} (h : Fits terms) :
    Fits (terms.map splitParts) := by
  rcases h with hfull | hfew
  · refine Or.inl fun row hrow ↦ ?_
    obtain ⟨term, hterm, rfl⟩ := List.mem_map.mp hrow
    have hpos := List.length_pos_iff.mpr (hfull term hterm)
    rw [← List.length_pos_iff, length_splitParts]
    omega
  · refine Or.inr ?_
    rwa [List.length_map]

/-! ## Round trips -/

/-- Tables and arrays hold the same. A table is packed if its rows are equally long, otherwise the
length at the top and the first other one are reported, and what was packed is unpacked again. An
array whose shape of two entries fits its numbers is unpacked to a table of that shape. A complex
table is found again behind the array of its parts in turn. Only of empty rows there can be too
many. -/
theorem StoredArray.round_trips (α : Type) :
    (∀ rows : List (List α),
      ((∃ array, ofRows rows = .ok array) ↔ Rectangular rows ∧ Counted rows) ∧
      (¬ Rectangular rows → ∃ top row, FirstUnequal rows top row ∧
        ofRows rows = fail (.dimensionMismatch "cached rows" top.length row.length)) ∧
      ∀ array, ofRows rows = .ok array → Fits rows → array.toRows = .ok rows) ∧
    (∀ (count width : ℕ) (data : List α) (array : StoredArray α),
      create [count, width] data = .ok array →
      (0 < width ∨ count * rowSize < memoryLimit → ∃ rows, array.toRows = .ok rows ∧
        rows.length = count ∧ (∀ row ∈ rows, row.length = width) ∧ rows.flatten = data) ∧
      (width = 0 ∧ memoryLimit ≤ count * rowSize →
        array.toRows = breakDown .capacityOverflow)) ∧
    ∀ (key : String) (terms : List (List (Cplx α))), Rectangular terms →
      Counted (terms.map splitParts) → Fits terms →
      ∃ array rows, ofRows (terms.map splitParts) = .ok array ∧ array.toRows = .ok rows ∧
        rows.mapM (ramanRow key) = .ok terms := by
  refine ⟨fun rows ↦ ⟨?_, fun hragged ↦ ?_, fun array h hfits ↦ toRows_ofRows h hfits⟩,
    fun count width data array h ↦ toRows_of_create h, fun key terms hterms hcounted hfits ↦ ?_⟩
  · constructor
    · rintro ⟨array, h⟩
      obtain ⟨hrows, hcounted, -⟩ := ofRows_eq_ok_iff.mp h
      exact ⟨hrows, hcounted⟩
    · rintro ⟨hrows, hcounted⟩
      exact ⟨_, ofRows_eq_ok_iff.mpr ⟨hrows, hcounted, rfl⟩⟩
  · obtain ⟨top, row, hunequal⟩ := exists_firstUnequal hragged
    exact ⟨top, row, hunequal, ofRows_of_firstUnequal hunequal⟩
  · have hpacked := ofRows_eq_ok_iff.mpr ⟨hterms.map_splitParts, hcounted, rfl⟩
    exact ⟨_, _, hpacked, toRows_ofRows hpacked hfits.map_splitParts,
      mapM_ramanRow_splitParts key terms⟩

/-- Three rows of two numbers, an array of two empty rows, and a complex row. -/
theorem StoredArray.round_trips_three :
    (∃ array : StoredArray Float, ofRows [[1, 2], [3, 4], [5, 6]] = .ok array ∧
      array.toRows = .ok [[1, 2], [3, 4], [5, 6]]) ∧
    (∃ rows : List (List Float), (StoredArray.mk [2, 0] []).toRows = .ok rows ∧ rows.length = 2) ∧
    ∃ (array : StoredArray Float) (rows : List (List Float)),
      ofRows ([[⟨1, 2⟩, ⟨3, 4⟩]].map splitParts) = .ok array ∧ array.toRows = .ok rows ∧
        rows.mapM (ramanRow "raman") = .ok [[⟨1, 2⟩, ⟨3, 4⟩]] := by
  obtain ⟨htables, harrays, hcomplex⟩ := round_trips Float
  refine ⟨?_, ?_, ?_⟩
  · obtain ⟨hpacks, -, hunpacks⟩ := htables [[1, 2], [3, 4], [5, 6]]
    obtain ⟨array, harray⟩ := hpacks.mpr ⟨by simp [Rectangular], by simp [Counted, countLimit]⟩
    exact ⟨array, harray, hunpacks array harray (Or.inl (by simp))⟩
  · have haccepted : create [2, 0] ([] : List Float) = .ok ⟨[2, 0], []⟩ := rfl
    obtain ⟨rows, hrows, hlength, -⟩ := (harrays 2 0 [] _ haccepted).1 (Or.inr (by decide))
    exact ⟨rows, hrows, hlength⟩
  · exact hcomplex "raman" [[⟨1, 2⟩, ⟨3, 4⟩]] (by simp [Rectangular])
      (by simp [Counted, countLimit, splitParts]) (Or.inl (by simp))

/-- An array that is accepted, with more empty rows than can be addressed. -/
theorem StoredArray.toRows_capacityOverflow : ∃ array : StoredArray Float,
    create [1152921504606846976, 0] [] = .ok array ∧ array.toRows = breakDown .capacityOverflow ∧
      ¬ ∃ rows, array.toRows = .ok rows := by
  have haccepted : create [1152921504606846976, 0] ([] : List Float) =
      .ok ⟨[1152921504606846976, 0], []⟩ :=
    create_eq_ok_iff.mpr ⟨by decide, by decide, rfl, rfl⟩
  have hbreak := (toRows_of_create haccepted).2 ⟨rfl, by decide⟩
  refine ⟨_, haccepted, hbreak, ?_⟩
  rintro ⟨rows, hrows⟩
  rw [hbreak] at hrows
  cases hrows

end Moire
