import Mathlib
import Moire.Proofs.RealScalar
import Moire.Proofs.ResultKeys

/-!
# Sampled paths

The points of a polygon are made side by side, the label positions are partial sums of their
numbers, and the path is read as one list. `KPath.Layout` says over the reals how the three fit
together: each side has the whole number of points next below its length times the density, evenly
spaced from its first vertex on, and the vertex stands in the flat list at its label position.
`polyline_layout` says that every polygon is sampled in this way unless a side has more points than
memory holds. `path_of_length` is about floats: the number of points alone tells the sample, which
is why it may stand for the path in a key.
-/

namespace Moire

/-! ## Positions in a flat list -/

/-- There is one partial sum more than there are counts. -/
theorem length_partialSums (first : ℕ) (counts : List ℕ) :
    (partialSums first counts).length = counts.length + 1 := by
  induction counts generalizing first with
  | nil => rfl
  | cons n rest ih => rw [partialSums, List.length_cons, ih, List.length_cons]

/-- A partial sum is the sum of the counts in front of it. -/
theorem partialSums_getElem? (first : ℕ) {counts : List ℕ} {i : ℕ} (hi : i ≤ counts.length) :
    (partialSums first counts)[i]? = some (first + (counts.take i).sum) := by
  induction counts generalizing first i with
  | nil =>
      obtain rfl : i = 0 := Nat.le_zero.mp hi
      rfl
  | cons n rest ih =>
      cases i with
      | zero => rfl
      | succ i =>
          rw [partialSums, List.getElem?_cons_succ, ih _ (Nat.le_of_succ_le_succ hi),
            List.take_succ_cons, List.sum_cons, Nat.add_assoc]

/-- The last partial sum is that of all counts. -/
theorem partialSums_getLast? (first : ℕ) (counts : List ℕ) :
    (partialSums first counts).getLast? = some (first + counts.sum) := by
  rw [List.getLast?_eq_getElem?, length_partialSums, Nat.add_sub_cancel,
    partialSums_getElem? first le_rfl, List.take_length]

/-- A part of a flat list begins where the parts in front of it end. -/
theorem flatten_getElem? {β : Type} {parts : List (List β)} {i t : ℕ} {part : List β}
    (hpart : parts[i]? = some part) (ht : t < part.length) :
    parts.flatten[((parts.map List.length).take i).sum + t]? = part[t]? := by
  obtain ⟨hi, hget⟩ := List.getElem?_eq_some_iff.mp hpart
  rw [← List.getElem?_drop, List.drop_sum_flatten, List.drop_eq_getElem_cons hi, hget,
    List.flatten_cons, List.getElem?_append_left ht]

/-! ## The sides of a polygon -/

/-- The sides of a polygon, each from one vertex to the next. -/
def polygonSides {β : Type} (vertices : List β) : List (β × β) :=
  vertices.zip vertices.tail

/-- A polygon has one side less than it has vertices. -/
theorem length_polygonSides {β : Type} (vertices : List β) :
    (polygonSides vertices).length = vertices.length - 1 := by
  rw [polygonSides, List.length_zip, List.length_tail]
  omega

/-- The side at an index joins the vertex there to the next one. -/
theorem polygonSides_getElem? {β : Type} {vertices : List β} {i : ℕ} {p q : β} :
    (polygonSides vertices)[i]? = some (p, q) ↔
      vertices[i]? = some p ∧ vertices[i + 1]? = some q := by
  rw [polygonSides, List.getElem?_zip_eq_some, List.getElem?_tail]

/-- The last vertex as a segment of its own, if it is included. -/
def lastSegment {β : Type} (vertices : List β) (includeLast : Bool) : List (List β) :=
  if includeLast then vertices.getLast?.toList.map fun last ↦ [last] else []

/-- The last segment is there when it is asked for and there is a vertex. -/
theorem length_lastSegment {β : Type} (vertices : List β) (includeLast : Bool) :
    (lastSegment vertices includeLast).length =
      if includeLast && !vertices.isEmpty then 1 else 0 := by
  unfold lastSegment
  cases includeLast <;> cases vertices <;> simp

/-- The last segment is one point. -/
theorem length_flatten_lastSegment {β : Type} (vertices : List β) (includeLast : Bool) :
    (lastSegment vertices includeLast).flatten.length =
      if includeLast && !vertices.isEmpty then 1 else 0 := by
  rw [← length_lastSegment]
  unfold lastSegment
  cases includeLast <;> cases vertices.getLast? <;> rfl

section

variable {α : Type} [Scalar α]

/-- The points of a side, the second vertex left out. -/
def dividedSide (p q : KPoint α) (count : ℕ) : List (KPoint α) :=
  (List.range count).map fun i ↦
    p + (q - p) / (Number.ofNat (max count 1) : α) * (Number.ofNat i : α)

/-- Divide a side with a given density. -/
def divideSide (density : α) (side : KPoint α × KPoint α) : Outcome (List (KPoint α)) :=
  segment side.1 side.2 (sideCount density side.1 side.2) false

/-- A side whose points fit into memory is divided into its points. -/
theorem divideSide_eq_ok {density : α} {side : KPoint α × KPoint α}
    (h : sideCount density side.1 side.2 * pointSize < memoryLimit) :
    divideSide density side =
      .ok (dividedSide side.1 side.2 (sideCount density side.1 side.2)) := by
  rw [divideSide, segment, reserve_eq_ok h]
  rfl

/-- A side whose points do not fit into memory breaks down. -/
theorem divideSide_eq_breakDown {density : α} {side : KPoint α × KPoint α}
    (h : memoryLimit ≤ sideCount density side.1 side.2 * pointSize) :
    divideSide density side = breakDown .capacityOverflow := by
  rw [divideSide, segment, reserve, if_neg (not_lt.mpr h)]
  rfl

/-- The sides are divided one after the other. -/
theorem sides_eq_mapM (density : α) (vertices : List (KPoint α)) :
    sides density vertices = (polygonSides vertices).mapM (divideSide density) := by
  induction vertices with
  | nil => rfl
  | cons p rest ih =>
      cases rest with
      | nil => rfl
      | cons q rest =>
          have hsides : polygonSides (p :: q :: rest) = (p, q) :: polygonSides (q :: rest) := rfl
          rw [sides, ih, hsides, List.mapM_cons]
          rfl

/-- The sample of a polygon. -/
def sampledPath (vertices : List (KPoint α)) (density : α) (includeLast : Bool) : KPath α where
  segments := (polygonSides vertices).map (fun side ↦ dividedSide side.1 side.2
    (sideCount (Number.nonnegative density) side.1 side.2)) ++ lastSegment vertices includeLast
  labelPositions := partialSums 0 ((polygonSides vertices).map fun side ↦
    sideCount (Number.nonnegative density) side.1 side.2)
  labels := []

/-- The points of a path are those of its sides and, if it is asked for, the last vertex. -/
theorem length_sampledPath (vertices : List (KPoint α)) (density : α) (includeLast : Bool) :
    (sampledPath vertices density includeLast).length =
      ((polygonSides vertices).map fun side ↦
        sideCount (Number.nonnegative density) side.1 side.2).sum +
        if includeLast && !vertices.isEmpty then 1 else 0 := by
  rw [KPath.length, KPath.points, sampledPath, List.flatten_append, List.length_append,
    length_flatten_lastSegment, List.length_flatten]
  simp [dividedSide, Function.comp_def]

variable {density : α} {vertices : List (KPoint α)}

/-- A polygon is sampled if memory holds the points of each side. -/
theorem polyline_of_fits (h : ∀ side ∈ polygonSides vertices,
      sideCount (Number.nonnegative density) side.1 side.2 * pointSize < memoryLimit)
    (includeLast : Bool) :
    polyline vertices density includeLast = .ok (sampledPath vertices density includeLast) := by
  have hsides : sides (Number.nonnegative density) vertices =
      .ok ((polygonSides vertices).map fun side ↦ dividedSide side.1 side.2
        (sideCount (Number.nonnegative density) side.1 side.2)) := by
    rw [sides_eq_mapM]
    refine mapM_eq_ok ?_
    rw [List.map_map]
    exact List.map_congr_left fun side hside ↦ (divideSide_eq_ok (h side hside)).symm
  rw [polyline, hsides]
  simp [bind, Except.bind, pure, Except.pure, dividedSide, Function.comp_def, sampledPath,
    lastSegment]

/-- A path is there when the points of each side fit into memory, and has as many points as the
sides together. -/
theorem polyline_of_counts {counts : List ℕ}
    (hcounts : (polygonSides vertices).map (fun side ↦
      sideCount (Number.nonnegative density) side.1 side.2) = counts)
    (hfits : ∀ n ∈ counts, n * pointSize < memoryLimit) (includeLast : Bool) :
    ∃ path, polyline vertices density includeLast = .ok path ∧
      path.length = counts.sum + if includeLast && !vertices.isEmpty then 1 else 0 := by
  subst hcounts
  exact ⟨_, polyline_of_fits (fun side hside ↦ hfits _ (List.mem_map_of_mem hside)) includeLast,
    length_sampledPath vertices density includeLast⟩

/-- A polygon is not sampled if memory cannot hold the points of one of its sides. -/
theorem polyline_of_not_fits (h : ∃ side ∈ polygonSides vertices,
      memoryLimit ≤ sideCount (Number.nonnegative density) side.1 side.2 * pointSize)
    (includeLast : Bool) :
    polyline vertices density includeLast = breakDown .capacityOverflow := by
  have hsides : sides (Number.nonnegative density) vertices = breakDown .capacityOverflow := by
    rw [sides_eq_mapM]
    rcases succeeds_or_first_failure (divideSide (Number.nonnegative density))
        (polygonSides vertices) with
      hall | ⟨before, side, after, cause, hsplit, hbefore, hside⟩
    · obtain ⟨side, hmem, hmany⟩ := h
      obtain ⟨points, hpoints⟩ := hall side hmem
      rw [divideSide_eq_breakDown hmany] at hpoints
      cases hpoints
    · -- The first side that is not divided need not be the given one, but it fails like it.
      have hmany : memoryLimit ≤
          sideCount (Number.nonnegative density) side.1 side.2 * pointSize := by
        by_contra hfew
        rw [divideSide_eq_ok (not_le.mp hfew)] at hside
        cases hside
      rw [hsplit]
      exact mapM_eq_error hbefore (divideSide_eq_breakDown hmany)
  rw [polyline, hsides]
  rfl

end

/-! ## The layout over the reals -/

/-- The length of a side. -/
noncomputable def sideLength (p q : KPoint ℝ) : ℝ :=
  √((q.x - p.x) ^ 2 + (q.y - p.y) ^ 2)

/-- The number of points on a side. A negative density counts as zero. -/
noncomputable def pointsOn (density : ℝ) (p q : KPoint ℝ) : ℕ :=
  ⌊sideLength p q * max density 0⌋₊

/-- The point a given part of the way along a side. -/
noncomputable def alongSide (p q : KPoint ℝ) (part : ℝ) : KPoint ℝ :=
  ⟨p.x + part * (q.x - p.x), p.y + part * (q.y - p.y)⟩

/-- A side of a polygon has its number of points in a path, between its label position and the next
one. They are evenly spaced from the first vertex on, which is at the label position if there are
any, and do not reach the second vertex. -/
structure KPath.HoldsSide (path : KPath ℝ) (density : ℝ) (i : ℕ) (p q : KPoint ℝ) (position : ℕ)
    (points : List (KPoint ℝ)) : Prop where
  segment : path.segments[i]? = some points
  label : path.labelPositions[i]? = some position
  next : path.labelPositions[i + 1]? = some (position + pointsOn density p q)
  points_eq : points = (List.range (pointsOn density p q)).map fun t : ℕ ↦
    alongSide p q (t / pointsOn density p q)
  first : points ≠ [] → points.head? = some p ∧ path.points[position]? = some p
  second : p ≠ q → q ∉ points

/-- The layout of a sampled polygon: a label position for each vertex, from zero on, the sides one
after the other, and the last vertex behind them if it is included. -/
structure KPath.Layout (path : KPath ℝ) (vertices : List (KPoint ℝ)) (density : ℝ)
    (includeLast : Bool) : Prop where
  start : path.labelPositions.head? = some 0
  labels : path.labelPositions.length = max vertices.length 1
  sides : ∀ i p q, vertices[i]? = some p → vertices[i + 1]? = some q →
    ∃ position points, path.HoldsSide density i p q position points
  segments : path.segments.length =
    vertices.length - 1 + if includeLast && !vertices.isEmpty then 1 else 0
  length : ∃ position, path.labelPositions.getLast? = some position ∧
    path.length = position + (if includeLast && !vertices.isEmpty then 1 else 0) ∧
    (includeLast = true → ∀ last, vertices.getLast? = some last →
      path.segments.getLast? = some [last] ∧ path.points[position]? = some last)

/-- A negative density counts as zero. -/
theorem nonnegative_eq (density : ℝ) : Number.nonnegative density = max density 0 := by
  unfold Number.nonnegative
  rw [RealScalar.lt_eq]
  by_cases h : 0 < density
  · simp [h, h.le]
  · simp [h, not_lt.mp h]

/-- The count of a side is its number of points, as far as it is a count. -/
theorem sideCount_eq (density : ℝ) (p q : KPoint ℝ) :
    sideCount (Number.nonnegative density) p q =
      min (pointsOn density p q) RealScalar.largestCount := by
  have hlength : (q - p).norm = sideLength p q := by
    rw [Vec2.norm, RealScalar.sqrt_eq, Vec2.normSq, sideLength, Vec2.sub_x, Vec2.sub_y, sq, sq]
  rw [nonnegative_eq, sideCount, hlength]
  rfl

/-- The points of a side lie evenly along it. -/
theorem dividedSide_eq (p q : KPoint ℝ) (count : ℕ) :
    dividedSide p q count = (List.range count).map fun t : ℕ ↦ alongSide p q (t / count) := by
  refine List.map_congr_left fun t ht ↦ ?_
  have hcount : max count 1 = count := max_eq_left (Nat.zero_lt_of_lt (List.mem_range.mp ht))
  rw [hcount, RealScalar.ofNat_eq, RealScalar.ofNat_eq]
  ext
  · show p.x + (q.x - p.x) / count * t = p.x + t / count * (q.x - p.x)
    ring
  · show p.y + (q.y - p.y) / count * t = p.y + t / count * (q.y - p.y)
    ring

/-- A side begins at its first vertex. -/
theorem alongSide_zero (p q : KPoint ℝ) : alongSide p q 0 = p := by
  ext <;> simp [alongSide]

/-- The second vertex is all the way along a side. -/
theorem alongSide_eq_second {p q : KPoint ℝ} {part : ℝ} (hne : p ≠ q)
    (h : alongSide p q part = q) : part = 1 := by
  have hx : p.x + part * (q.x - p.x) = q.x := congrArg Vec2.x h
  have hy : p.y + part * (q.y - p.y) = q.y := congrArg Vec2.y h
  by_contra hpart
  have hrest : 1 - part ≠ 0 := sub_ne_zero.mpr (Ne.symm hpart)
  refine hne (Vec2.ext ?_ ?_)
  · have hzero : (1 - part) * (q.x - p.x) = 0 := by linarith
    linarith [(mul_eq_zero.mp hzero).resolve_left hrest]
  · have hzero : (1 - part) * (q.y - p.y) = 0 := by linarith
    linarith [(mul_eq_zero.mp hzero).resolve_left hrest]

/-- The second vertex is not among the points of a side. -/
theorem second_notMem {p q : KPoint ℝ} (hne : p ≠ q) (count : ℕ) :
    q ∉ (List.range count).map fun t : ℕ ↦ alongSide p q (t / count) := by
  intro hmem
  obtain ⟨t, ht, heq⟩ := List.mem_map.mp hmem
  have hlt : (t : ℝ) < count := by exact_mod_cast List.mem_range.mp ht
  have hpos : (0 : ℝ) < count := t.cast_nonneg.trans_lt hlt
  have hpart := alongSide_eq_second hne heq
  rw [div_eq_one_iff_eq hpos.ne'] at hpart
  exact hlt.ne hpart

/-- The points of a side over the reals. -/
noncomputable def exactSide (density : ℝ) (side : KPoint ℝ × KPoint ℝ) : List (KPoint ℝ) :=
  (List.range (pointsOn density side.1 side.2)).map fun t : ℕ ↦
    alongSide side.1 side.2 (t / pointsOn density side.1 side.2)

/-- The sample of a polygon over the reals. -/
noncomputable def exactPath (vertices : List (KPoint ℝ)) (density : ℝ) (includeLast : Bool) :
    KPath ℝ where
  segments := (polygonSides vertices).map (exactSide density) ++ lastSegment vertices includeLast
  labelPositions := partialSums 0 ((polygonSides vertices).map fun side ↦
    pointsOn density side.1 side.2)
  labels := []

/-- Over the reals a side has as many points as `pointsOn` says. -/
theorem map_length_exactSide (vertices : List (KPoint ℝ)) (density : ℝ) :
    ((polygonSides vertices).map (exactSide density)).map List.length =
      (polygonSides vertices).map fun side ↦ pointsOn density side.1 side.2 := by
  simp [exactSide, Function.comp_def]

/-- Each side of the polygon is held by its sample. -/
theorem exactPath_holdsSide {vertices : List (KPoint ℝ)} (density : ℝ) (includeLast : Bool)
    {i : ℕ} {p q : KPoint ℝ} (hp : vertices[i]? = some p) (hq : vertices[i + 1]? = some q) :
    ∃ position, (exactPath vertices density includeLast).HoldsSide density i p q position
      (exactSide density (p, q)) := by
  have hside : (polygonSides vertices)[i]? = some (p, q) := polygonSides_getElem?.mpr ⟨hp, hq⟩
  obtain ⟨hi, -⟩ := List.getElem?_eq_some_iff.mp hside
  set counts := (polygonSides vertices).map fun side ↦ pointsOn density side.1 side.2 with hcounts
  have hlength : counts.length = (polygonSides vertices).length := List.length_map _
  have hsegment : (exactPath vertices density includeLast).segments[i]? =
      some (exactSide density (p, q)) := by
    rw [exactPath, List.getElem?_append_left (by rwa [List.length_map]), List.getElem?_map, hside]
    rfl
  have hcount : counts[i]? = some (pointsOn density p q) := by
    rw [hcounts, List.getElem?_map, hside]
    rfl
  have hfront : ((exactPath vertices density includeLast).segments.map List.length).take i =
      counts.take i := by
    rw [exactPath, List.map_append, map_length_exactSide, ← hcounts,
      List.take_append_of_le_length (by omega)]
  refine ⟨(counts.take i).sum, hsegment, ?_, ?_, rfl, fun hpoints ↦ ?_, fun hne ↦
    second_notMem hne _⟩
  · rw [exactPath, ← hcounts, partialSums_getElem? 0 (by omega), Nat.zero_add]
  · rw [exactPath, ← hcounts, partialSums_getElem? 0 (by omega), Nat.zero_add, List.take_add_one,
      hcount]
    simp
  · have hpos : 0 < pointsOn density p q := by
      by_contra hnone
      exact hpoints (by simp [exactSide, Nat.eq_zero_of_not_pos hnone])
    have hfirst : (exactSide density (p, q))[0]? = some p := by
      simp [exactSide, hpos, alongSide_zero]
    refine ⟨by rwa [List.head?_eq_getElem?], ?_⟩
    have hflat := flatten_getElem? hsegment (List.length_pos_of_ne_nil hpoints)
    rw [hfront, hfirst] at hflat
    exact hflat

/-- The sample of a polygon over the reals has the layout of one. -/
theorem exactPath_layout (vertices : List (KPoint ℝ)) (density : ℝ) (includeLast : Bool) :
    (exactPath vertices density includeLast).Layout vertices density includeLast := by
  set counts := (polygonSides vertices).map fun side ↦ pointsOn density side.1 side.2 with hcounts
  have hpositions : (exactPath vertices density includeLast).labelPositions =
      partialSums 0 counts := rfl
  have hsides : ((polygonSides vertices).map (exactSide density)).flatten.length = counts.sum := by
    rw [List.length_flatten, map_length_exactSide]
  refine ⟨?_, ?_, fun i p q hp hq ↦ ?_, ?_, counts.sum, ?_, ?_, fun hlast last hvertex ↦ ?_⟩
  · rw [hpositions, List.head?_eq_getElem?, partialSums_getElem? 0 (Nat.zero_le _)]
    rfl
  · rw [hpositions, length_partialSums, List.length_map, length_polygonSides]
    omega
  · obtain ⟨position, hside⟩ := exactPath_holdsSide density includeLast hp hq
    exact ⟨position, _, hside⟩
  · rw [exactPath, List.length_append, List.length_map, length_polygonSides, length_lastSegment]
  · rw [hpositions, partialSums_getLast?, Nat.zero_add]
  · rw [KPath.length, KPath.points, exactPath, List.flatten_append, List.length_append, hsides,
      length_flatten_lastSegment]
  · have hsegment : lastSegment vertices includeLast = [[last]] := by
      rw [lastSegment, if_pos hlast, hvertex]
      rfl
    refine ⟨by simp [exactPath, hsegment], ?_⟩
    rw [KPath.points, exactPath, hsegment, List.flatten_append, ← hsides,
      List.getElem?_append_right le_rfl, Nat.sub_self]
    rfl

/-- A side has as many points as memory is asked for, if it holds them. -/
theorem sideCount_of_fits {density : ℝ} {p q : KPoint ℝ}
    (h : pointsOn density p q * pointSize < memoryLimit) :
    sideCount (Number.nonnegative density) p q = pointsOn density p q := by
  rw [sideCount_eq]
  refine min_eq_left ?_
  unfold pointSize memoryLimit at h
  unfold RealScalar.largestCount countLimit
  omega

/-- A number of points that memory cannot hold is not made smaller by the limit of counts. -/
theorem sideCount_of_not_fits {density : ℝ} {p q : KPoint ℝ}
    (h : memoryLimit ≤ pointsOn density p q * pointSize) :
    memoryLimit ≤ sideCount (Number.nonnegative density) p q * pointSize := by
  rw [sideCount_eq]
  unfold pointSize memoryLimit RealScalar.largestCount countLimit at *
  omega

/-- Over the reals a polygon is sampled exactly. -/
theorem polyline_eq_exactPath {vertices : List (KPoint ℝ)} {density : ℝ}
    (h : ∀ side ∈ polygonSides vertices,
      pointsOn density side.1 side.2 * pointSize < memoryLimit) (includeLast : Bool) :
    polyline vertices density includeLast = .ok (exactPath vertices density includeLast) := by
  have hcount : ∀ side ∈ polygonSides vertices,
      sideCount (Number.nonnegative density) side.1 side.2 = pointsOn density side.1 side.2 :=
    fun side hside ↦ sideCount_of_fits (h side hside)
  have hsides : (polygonSides vertices).map (fun side ↦ dividedSide side.1 side.2
      (sideCount (Number.nonnegative density) side.1 side.2)) =
        (polygonSides vertices).map (exactSide density) :=
    List.map_congr_left fun side hside ↦ by rw [hcount side hside, dividedSide_eq, exactSide]
  rw [polyline_of_fits (fun side hside ↦ (hcount side hside).symm ▸ h side hside) includeLast,
    sampledPath, hsides, List.map_congr_left hcount]
  rfl

/-- Every polygon is sampled with the layout of a path, with any density and with or without its
last vertex, unless memory cannot hold the points of a side. -/
theorem polyline_layout (vertices : List (KPoint ℝ)) (density : ℝ) (includeLast : Bool) :
    ((∀ side ∈ polygonSides vertices, pointsOn density side.1 side.2 * pointSize < memoryLimit) →
      ∃ path, polyline vertices density includeLast = .ok path ∧
        path.Layout vertices density includeLast) ∧
    ((∃ side ∈ polygonSides vertices, memoryLimit ≤ pointsOn density side.1 side.2 * pointSize) →
      polyline vertices density includeLast = breakDown .capacityOverflow) := by
  refine ⟨fun hfits ↦ ⟨_, polyline_eq_exactPath hfits includeLast,
    exactPath_layout vertices density includeLast⟩, ?_⟩
  rintro ⟨side, hside, hmany⟩
  exact polyline_of_not_fits ⟨side, hside, sideCount_of_not_fits hmany⟩ includeLast

/-- On a side of whole length a whole density gives a whole number of points. -/
theorem pointsOn_of_sideLength {p q : KPoint ℝ} {length : ℕ} (h : sideLength p q = length)
    (density : ℕ) : pointsOn density p q = length * density := by
  have hproduct : sideLength p q * max (density : ℝ) 0 = ((length * density : ℕ) : ℝ) := by
    rw [h, max_eq_left density.cast_nonneg, Nat.cast_mul]
  rw [pointsOn, hproduct, Nat.floor_natCast]

/-- A side of length five, one without a length, and the last vertex. -/
theorem polyline_layout_three : ∃ path : KPath ℝ,
    polyline [⟨0, 0⟩, ⟨3, 4⟩, ⟨3, 4⟩] 1 true = .ok path ∧
      path.labelPositions = [0, 5, 5] ∧ path.length = 6 ∧ path.points[5]? = some ⟨3, 4⟩ := by
  have hfirst : sideLength ⟨0, 0⟩ ⟨3, 4⟩ = (5 : ℕ) := by
    rw [sideLength, Real.sqrt_eq_iff_mul_self_eq_of_pos (by norm_num)]
    norm_num
  have hsecond : sideLength ⟨3, 4⟩ ⟨3, 4⟩ = (0 : ℕ) := by simp [sideLength]
  have hfive : pointsOn 1 ⟨0, 0⟩ ⟨3, 4⟩ = 5 := by
    simpa using pointsOn_of_sideLength hfirst 1
  have hnone : pointsOn 1 ⟨3, 4⟩ ⟨3, 4⟩ = 0 := by
    simpa using pointsOn_of_sideLength hsecond 1
  have hfits : ∀ side ∈ polygonSides ([⟨0, 0⟩, ⟨3, 4⟩, ⟨3, 4⟩] : List (KPoint ℝ)),
      pointsOn 1 side.1 side.2 * pointSize < memoryLimit := by
    intro side hside
    rcases List.mem_pair.mp hside with rfl | rfl
    · rw [hfive]
      decide
    · rw [hnone]
      decide
  obtain ⟨path, hpath, hlayout⟩ :=
    (polyline_layout [⟨0, 0⟩, ⟨3, 4⟩, ⟨3, 4⟩] 1 true).1 hfits
  obtain ⟨start, points, hside⟩ := hlayout.sides 0 ⟨0, 0⟩ ⟨3, 4⟩ rfl rfl
  obtain ⟨middle, points', hside'⟩ := hlayout.sides 1 ⟨3, 4⟩ ⟨3, 4⟩ rfl rfl
  obtain ⟨position, hposition, hlength, hlast⟩ := hlayout.length
  obtain ⟨a, b, c, hlabels⟩ := List.length_eq_three.mp hlayout.labels
  have ha : a = 0 := by simpa [hlabels] using hlayout.start
  have hb : b = start + 5 ∧ a = start := by
    simpa [hlabels, hfive] using And.intro hside.next hside.label
  have hc : c = middle ∧ b = middle := by
    simpa [hlabels, hnone] using And.intro hside'.next hside'.label
  have hend : c = position := by simpa [hlabels] using hposition
  obtain rfl : position = 5 := by omega
  refine ⟨path, hpath, ?_, hlength, (hlast rfl _ rfl).2⟩
  rw [hlabels, List.cons.injEq, List.cons.injEq, List.cons.injEq]
  exact ⟨ha, by omega, by omega, rfl⟩

/-- A side of length one with more points than can be addressed. -/
theorem polyline_capacityOverflow :
    polyline [⟨0, 0⟩, ⟨1, 0⟩] ((1000000000000000000 : ℕ) : ℝ) true = breakDown .capacityOverflow ∧
      ¬ ∃ path, polyline [⟨0, 0⟩, ⟨1, 0⟩] ((1000000000000000000 : ℕ) : ℝ) true = .ok path := by
  have hlength : sideLength ⟨0, 0⟩ ⟨1, 0⟩ = (1 : ℕ) := by simp [sideLength]
  have hmany : memoryLimit ≤
      pointsOn ((1000000000000000000 : ℕ) : ℝ) ⟨0, 0⟩ ⟨1, 0⟩ * pointSize := by
    rw [pointsOn_of_sideLength hlength]
    decide
  have hside : (⟨0, 0⟩, ⟨1, 0⟩) ∈ polygonSides ([⟨0, 0⟩, ⟨1, 0⟩] : List (KPoint ℝ)) :=
    List.mem_cons_self
  have hbreak := polyline_of_not_fits ⟨_, hside, sideCount_of_not_fits hmany⟩ true
  refine ⟨hbreak, ?_⟩
  rintro ⟨path, hpath⟩
  rw [hbreak] at hpath
  cases hpath

/-! ## The number of points -/

/-- The number of points tells the sample of a polygon. Whatever two densities are, negative ones
included, samples of equally many points have the same segments, points and label positions. So do
the paths of one model for which band structures, or Raman amplitudes, have the same key. -/
theorem path_of_length :
    (∀ (vertices : List (KPoint Float)) (includeLast : Bool) (d d' : Float)
      (path path' : KPath Float), polyline vertices d includeLast = .ok path →
      polyline vertices d' includeLast = .ok path' → path.length = path'.length →
      path.segments = path'.segments ∧ path.points = path'.points ∧
        path.labelPositions = path'.labelPositions) ∧
    ∀ ctx ctx' : TaskContext Float, ctx.model = ctx'.model →
      (∀ path path' : KPath Float, ctx.model.defaultPath.sample ctx.density true = .ok path →
        ctx'.model.defaultPath.sample ctx'.density true = .ok path' →
        ctx.windowKey "bands" path.length = ctx'.windowKey "bands" path'.length → path = path') ∧
      ∀ path path' : KPath Float, ctx.model.ramanPath.sample ctx.density false = .ok path →
        ctx'.model.ramanPath.sample ctx'.density false = .ok path' →
        ctx.ramanKey path.length = ctx'.ramanKey path'.length → path = path' := by
  refine ⟨fun vertices includeLast d d' path path' h h' hlength ↦ ?_, fun ctx ctx' hmodel ↦
    ⟨fun path path' h h' hkey ↦ ?_, fun path path' h h' hkey ↦ ?_⟩⟩
  · obtain rfl := polyline_eq_of_length_eq (Binary64.denser_total d d') h h' hlength
    exact ⟨rfl, rfl, rfl⟩
  · rw [TaskContext.windowKey_bands, TaskContext.windowKey_bands] at hkey
    obtain ⟨-, -, -, hlength, -⟩ := TaskContext.key_inj hkey
    rw [hmodel] at h
    exact HighSymmetryPath.sample_eq_of_length_eq (Binary64.denser_total _ _) h h' hlength
  · rw [TaskContext.ramanKey_eq, TaskContext.ramanKey_eq] at hkey
    obtain ⟨-, -, -, hlength, -⟩ := TaskContext.key_inj hkey
    rw [hmodel] at h
    exact HighSymmetryPath.sample_eq_of_length_eq (Binary64.denser_total _ _) h h' hlength

/-- A run that draws the continuum model's path with a given density. -/
def drawnWith (density : Float) : TaskContext Float where
  model := .continuum (.ofParams .default)
  evaluator := ⟨1⟩
  solve := fun _ ↦ none
  sort := .insertion
  params := { ObservableParams.empty with pathDensity := some density }
  refresh := false

/-- The density of a drawing is no part of its model. -/
theorem model_drawnWith (d d' : Float) : (drawnWith d).model = (drawnWith d').model := rfl

/-- The density of a drawing is no part of its keys. -/
theorem windowKey_drawnWith (d d' : Float) (kind : String) (length : ℕ) :
    (drawnWith d).windowKey kind length = (drawnWith d').windowKey kind length := rfl

/-- Such a run draws as many points as there are on the sides, and the last vertex. -/
theorem sample_drawnWith (density : Float) (counts : List ℕ)
    (hcounts : (polygonSides (drawnWith density).model.defaultPath.vertices).map (fun side ↦
      sideCount (Number.nonnegative (drawnWith density).density) side.1 side.2) = counts)
    (hfits : ∀ n ∈ counts, n * pointSize < memoryLimit) : ∃ path,
      (drawnWith density).model.defaultPath.sample (drawnWith density).density true = .ok path ∧
        path.length = counts.sum + 1 := by
  obtain ⟨path, hpath, hlength⟩ := polyline_of_counts hcounts hfits true
  exact ⟨_, bind_eq_ok.mpr ⟨path, hpath, rfl⟩, hlength⟩

/-- Two densities with two points on a side of length five, and two with ten points along the path
of the continuum model. -/
theorem path_of_length_two :
    (∃ path path' : KPath Float, polyline [⟨0, 0⟩, ⟨3, 4⟩] 0.4 true = .ok path ∧
      polyline [⟨0, 0⟩, ⟨3, 4⟩] 0.5 true = .ok path' ∧ path.length = 3 ∧
      path.segments = path'.segments ∧ path.points = path'.points ∧
        path.labelPositions = path'.labelPositions) ∧
    ∃ path path' : KPath Float,
      (drawnWith 2.1).model.defaultPath.sample (drawnWith 2.1).density true = .ok path ∧
      (drawnWith 2.25).model.defaultPath.sample (drawnWith 2.25).density true = .ok path' ∧
      path.length = 10 ∧ path = path' := by
  constructor
  · obtain ⟨path, hpath, hlength⟩ := polyline_of_counts (show (polygonSides [⟨0, 0⟩, ⟨3, 4⟩]).map
      (fun side ↦ sideCount (Number.nonnegative (0.4 : Float)) side.1 side.2) = [2] by
        decide +kernel) (by decide) true
    obtain ⟨path', hpath', hlength'⟩ := polyline_of_counts (show (polygonSides [⟨0, 0⟩, ⟨3, 4⟩]).map
      (fun side ↦ sideCount (Number.nonnegative (0.5 : Float)) side.1 side.2) = [2] by
        decide +kernel) (by decide) true
    exact ⟨path, path', hpath, hpath', hlength,
      path_of_length.1 _ _ _ _ _ _ hpath hpath' (hlength.trans hlength'.symm)⟩
  · obtain ⟨path, hpath, hlength⟩ :=
      sample_drawnWith 2.1 [2, 2, 3, 2] (by decide +kernel) (by decide)
    obtain ⟨path', hpath', hlength'⟩ :=
      sample_drawnWith 2.25 [2, 2, 3, 2] (by decide +kernel) (by decide)
    have hkey : (drawnWith 2.1).windowKey "bands" path.length =
        (drawnWith 2.25).windowKey "bands" path'.length := by
      rw [hlength, hlength', windowKey_drawnWith 2.1 2.25]
    exact ⟨path, path', hpath, hpath', hlength,
      (path_of_length.2 (drawnWith 2.1) (drawnWith 2.25) (model_drawnWith 2.1 2.25)).1 path path'
        hpath hpath' hkey⟩

end Moire
