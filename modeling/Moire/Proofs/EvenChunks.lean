import Mathlib
import Moire.Proofs.Evaluation

/-!
# Chunks of almost equal size

An evaluator cuts a list by sizes, one chunk after the other. The same chunks lie between bounds
that are computed for each chunk by itself, `chunkStart` and `chunkStop`. For at least one worker
the bounds are in order and within the list, each chunk begins where the one in front of it ends,
and none is empty. `Evaluator.partition_cover` says that the slices between these bounds are the
chunks, and collects what that means for their number, their sizes and the place of an item.
-/

namespace Moire

variable {β : Type}

/-- The part of a list from one place up to another, which have to be in order and within it. -/
def slice (items : List β) (start stop : ℕ) : Outcome (List β) :=
  if start ≤ stop ∧ stop ≤ items.length then .ok ((items.drop start).take (stop - start))
  else breakDown (.indexOutOfBounds items.length stop)

/-! ## Pieces of given sizes -/

/-- There is a chunk for each size. -/
theorem length_splitSizes (sizes : List ℕ) (items : List β) :
    (splitSizes sizes items).length = sizes.length := by
  induction sizes generalizing items with
  | nil => rfl
  | cons size sizes ih => rw [splitSizes, List.length_cons, List.length_cons, ih]

/-- A piece begins where the pieces in front of it end. -/
theorem splitSizes_getElem? (sizes : List ℕ) (items : List β) (c : ℕ) :
    (splitSizes sizes items)[c]? =
      sizes[c]?.map fun size ↦ (items.drop (sizes.take c).sum).take size := by
  induction sizes generalizing items c with
  | nil => rfl
  | cons size sizes ih =>
      cases c with
      | zero => rfl
      | succ c =>
          rw [splitSizes, List.getElem?_cons_succ, List.getElem?_cons_succ, ih,
            List.take_succ_cons, List.sum_cons]
          simp only [List.drop_drop]

namespace Evaluator

/-! ## The bounds of a chunk -/

variable (evaluator : Evaluator) (length : ℕ)

/-- The number of chunks of a list: one per worker, as far as the items go. -/
def chunkCount : ℕ := min evaluator.workers length

/-- The number of items in each chunk but the last. -/
def chunkSize : ℕ := length / evaluator.chunkCount length

/-- Where a chunk begins. -/
def chunkStart (c : ℕ) : ℕ := c * evaluator.chunkSize length

/-- Where a chunk ends. -/
def chunkStop (c : ℕ) : ℕ :=
  if c + 1 = evaluator.chunkCount length then length
  else evaluator.chunkStart length c + evaluator.chunkSize length

/-- Cut a list between bounds that are computed for each chunk by itself. -/
def slices (items : List β) : Outcome (List (List β)) :=
  if items.isEmpty then .ok []
  else (List.range (evaluator.chunkCount items.length)).mapM fun c ↦
    slice items (evaluator.chunkStart items.length c) (evaluator.chunkStop items.length c)

variable {evaluator length}

/-- There is a chunk when there is something to divide. -/
theorem chunkCount_pos (hworkers : 1 ≤ evaluator.workers) (hlength : 0 < length) :
    0 < evaluator.chunkCount length :=
  lt_min hworkers hlength

/-- Chunks are not empty when there is something to divide. -/
theorem chunkSize_pos (hworkers : 1 ≤ evaluator.workers) (hlength : 0 < length) :
    0 < evaluator.chunkSize length :=
  Nat.div_pos (min_le_right _ _) (chunkCount_pos hworkers hlength)

/-- The chunks of the full size take up the list but for a remainder. -/
theorem chunkCount_mul_chunkSize :
    evaluator.chunkCount length * evaluator.chunkSize length +
      length % evaluator.chunkCount length = length :=
  Nat.div_add_mod _ _

/-- Each chunk begins where the one in front of it ends. -/
theorem chunkStop_eq_chunkStart {c : ℕ} (hc : c + 1 < evaluator.chunkCount length) :
    evaluator.chunkStop length c = evaluator.chunkStart length (c + 1) := by
  rw [chunkStop, if_neg hc.ne, chunkStart, chunkStart, Nat.succ_mul]

/-- All chunks but the last have the same size. -/
theorem chunkStop_of_lt {c : ℕ} (hc : c + 1 < evaluator.chunkCount length) :
    evaluator.chunkStop length c =
      evaluator.chunkStart length c + evaluator.chunkSize length :=
  if_neg hc.ne

/-- The last chunk has the remainder as well. -/
theorem chunkStop_of_last {c : ℕ} (hc : c + 1 = evaluator.chunkCount length) :
    evaluator.chunkStop length c = evaluator.chunkStart length c +
      (evaluator.chunkSize length + length % evaluator.chunkCount length) := by
  rw [chunkStop, if_pos hc, chunkStart, ← Nat.add_assoc, ← Nat.succ_mul, Nat.succ_eq_add_one, hc]
  exact chunkCount_mul_chunkSize.symm

/-- The bounds of a chunk are within the list. -/
theorem chunkStop_le {c : ℕ} (hc : c < evaluator.chunkCount length) :
    evaluator.chunkStop length c ≤ length := by
  obtain hlast | hless := Nat.eq_or_lt_of_le hc
  · rw [chunkStop, if_pos hlast]
  · calc evaluator.chunkStop length c
        = (c + 1) * evaluator.chunkSize length := chunkStop_eq_chunkStart hless
      _ ≤ evaluator.chunkCount length * evaluator.chunkSize length :=
          Nat.mul_le_mul_right _ hless.le
      _ ≤ length := Nat.mul_div_le _ _

/-- A chunk ends behind its begin. -/
theorem chunkStart_lt_chunkStop (hworkers : 1 ≤ evaluator.workers) (hlength : 0 < length) {c : ℕ}
    (hc : c < evaluator.chunkCount length) :
    evaluator.chunkStart length c < evaluator.chunkStop length c := by
  have hsize := chunkSize_pos hworkers hlength
  obtain hlast | hless := Nat.eq_or_lt_of_le hc
  · rw [chunkStop_of_last hlast]
    omega
  · rw [chunkStop_of_lt hless]
    omega

/-- The number of the chunk that an item at a given place is in. -/
theorem chunk_bounds (hworkers : 1 ≤ evaluator.workers) {p : ℕ} (hp : p < length) :
    min (p / evaluator.chunkSize length) (evaluator.chunkCount length - 1) <
        evaluator.chunkCount length ∧
      evaluator.chunkStart length
        (min (p / evaluator.chunkSize length) (evaluator.chunkCount length - 1)) ≤ p ∧
      p < evaluator.chunkStop length
        (min (p / evaluator.chunkSize length) (evaluator.chunkCount length - 1)) := by
  have hlength : 0 < length := Nat.zero_lt_of_lt hp
  have hcount := chunkCount_pos hworkers hlength
  have hsize := chunkSize_pos hworkers hlength
  have hfloor : p / evaluator.chunkSize length * evaluator.chunkSize length ≤ p :=
    Nat.div_mul_le_self _ _
  refine ⟨by omega, ?_, ?_⟩
  · exact (Nat.mul_le_mul_right _ (min_le_left _ _)).trans hfloor
  · obtain hless | hmore := lt_or_ge (p / evaluator.chunkSize length + 1)
        (evaluator.chunkCount length)
    · rw [min_eq_left (by omega), chunkStop_of_lt hless, chunkStart, ← Nat.succ_mul]
      rw [Nat.mul_comm]
      exact Nat.lt_mul_div_succ p hsize
    · -- The last chunk takes whatever is left.
      rw [min_eq_right (by omega), chunkStop, if_pos (by omega)]
      exact hp

/-! ## The chunks -/

/-- The size of a chunk is the distance between its ends. -/
theorem chunkSizes_getElem? {c : ℕ} (hc : c < evaluator.chunkCount length) :
    (evaluator.chunkSizes length)[c]? =
      some (evaluator.chunkStop length c - evaluator.chunkStart length c) := by
  have hlength : length ≠ 0 := fun hzero ↦ by simp [chunkCount, hzero] at hc
  have hsizes : evaluator.chunkSizes length =
      List.replicate (evaluator.chunkCount length - 1) (evaluator.chunkSize length) ++
        [length - evaluator.chunkStart length (evaluator.chunkCount length - 1)] :=
    if_neg hlength
  obtain hlast | hless := Nat.eq_or_lt_of_le hc
  · obtain rfl : evaluator.chunkCount length - 1 = c := by omega
    rw [hsizes, List.getElem?_append_right (by simp), List.length_replicate, Nat.sub_self,
      chunkStop, if_pos hlast]
    rfl
  · rw [hsizes, List.getElem?_append_left (by rw [List.length_replicate]; omega),
      List.getElem?_replicate, if_pos (by omega), chunkStop_of_lt hless, Nat.add_sub_cancel_left]

/-- The chunks before one add up to its start. -/
theorem sum_take_chunkSizes {c : ℕ} (hc : c < evaluator.chunkCount length) :
    ((evaluator.chunkSizes length).take c).sum = evaluator.chunkStart length c := by
  induction c with
  | zero => simp [chunkStart]
  | succ c ih =>
      have hless : c < evaluator.chunkCount length := Nat.lt_of_succ_lt hc
      rw [List.take_add_one, chunkSizes_getElem? hless, List.sum_append, ih hless,
        chunkStop_of_lt hc, ← chunkStop_eq_chunkStart hc, chunkStop_of_lt hc]
      simp

/-- A chunk is what lies between its bounds. -/
theorem partition_getElem? (items : List β) {c : ℕ} (hc : c < evaluator.chunkCount items.length) :
    (evaluator.partition items)[c]? =
      some ((items.drop (evaluator.chunkStart items.length c)).take
        (evaluator.chunkStop items.length c - evaluator.chunkStart items.length c)) := by
  rw [partition, splitSizes_getElem?, chunkSizes_getElem? hc, sum_take_chunkSizes hc]
  rfl

/-- The items are divided into as many chunks as the count says. -/
theorem length_partition (hworkers : 1 ≤ evaluator.workers) (items : List β) :
    (evaluator.partition items).length = evaluator.chunkCount items.length := by
  rw [partition, length_splitSizes, chunkSizes]
  split
  next hzero => simp [chunkCount, hzero]
  next hlength =>
    have hcount := chunkCount_pos hworkers (Nat.pos_of_ne_zero hlength)
    unfold chunkCount at *
    simp
    omega

/-- The slices between the bounds are the chunks, and none is out of range. -/
theorem slices_eq_ok (hworkers : 1 ≤ evaluator.workers) (items : List β) :
    evaluator.slices items = .ok (evaluator.partition items) := by
  unfold slices
  split
  next hempty =>
    obtain rfl := List.isEmpty_iff.mp hempty
    rfl
  next hempty =>
    have hlength : 0 < items.length := by
      simpa [List.length_pos_iff, List.isEmpty_iff] using hempty
    refine mapM_eq_ok (List.ext_getElem? fun c ↦ ?_)
    rw [List.getElem?_map, List.getElem?_map]
    obtain hc | hc := lt_or_ge c (evaluator.chunkCount items.length)
    · have hbounds : evaluator.chunkStart items.length c ≤ evaluator.chunkStop items.length c ∧
          evaluator.chunkStop items.length c ≤ items.length :=
        ⟨(chunkStart_lt_chunkStop hworkers hlength hc).le, chunkStop_le hc⟩
      rw [partition_getElem? items hc, List.getElem?_range hc]
      simp only [Option.map_some, slice, if_pos hbounds]
    · rw [List.getElem?_eq_none (by rwa [length_partition hworkers]),
        List.getElem?_eq_none (by rwa [List.length_range])]
      rfl

end Evaluator

/-- The chunks cover a list in its order. There are as many as workers, as far as the items go, and
none is empty. All but the last have the same size, and the last has the remainder as well. An item
is in the chunk that its place divided by the size tells, or in the last one, and there at its place
behind the begin of the chunk. -/
structure EvenCover (workers : ℕ) (items : List β) (chunks : List (List β)) : Prop where
  count : chunks.length = min workers items.length
  nonempty : ∀ chunk ∈ chunks, chunk ≠ []
  flatten : chunks.flatten = items
  full : ∀ c chunk, c + 1 < chunks.length → chunks[c]? = some chunk →
    chunk.length = items.length / chunks.length
  last : ∀ chunk, chunks.getLast? = some chunk →
    chunk.length = items.length / chunks.length + items.length % chunks.length
  place : ∀ p item, items[p]? = some item →
    ∃ c chunk, c = min (p / (items.length / chunks.length)) (chunks.length - 1) ∧
      chunks[c]? = some chunk ∧ chunk[p - c * (items.length / chunks.length)]? = some item

namespace Evaluator

variable {evaluator : Evaluator}

/-- A chunk is as long as its bounds are apart. -/
theorem length_of_partition_getElem? {items chunk : List β} {c : ℕ}
    (hc : c < evaluator.chunkCount items.length)
    (hchunk : (evaluator.partition items)[c]? = some chunk) :
    chunk.length = evaluator.chunkStop items.length c - evaluator.chunkStart items.length c := by
  rw [partition_getElem? items hc] at hchunk
  cases hchunk
  have hstop := chunkStop_le hc
  rw [List.length_take, List.length_drop]
  omega

/-- For at least one worker a list is cut at bounds within it, and the chunks cover it evenly. -/
theorem partition_cover (hworkers : 1 ≤ evaluator.workers) (items : List β) :
    evaluator.slices items = .ok (evaluator.partition items) ∧
      EvenCover evaluator.workers items (evaluator.partition items) := by
  have hcount := length_partition hworkers items
  have hsize : items.length / (evaluator.partition items).length =
      evaluator.chunkSize items.length := by
    rw [hcount, chunkSize]
  refine ⟨slices_eq_ok hworkers items, hcount, fun chunk hmem ↦ ?_,
    evaluator.partition_flatten items, fun c chunk hc hchunk ↦ ?_, fun chunk hchunk ↦ ?_,
    fun p item hitem ↦ ?_⟩
  · obtain ⟨c, hchunk⟩ := List.mem_iff_getElem?.mp hmem
    obtain ⟨hc, -⟩ := List.getElem?_eq_some_iff.mp hchunk
    rw [hcount] at hc
    have hlength : 0 < items.length := hc.pos.trans_le (min_le_right _ _)
    have hbounds := chunkStart_lt_chunkStop hworkers hlength hc
    rw [← List.length_pos_iff, length_of_partition_getElem? hc hchunk]
    omega
  · rw [hcount] at hc
    rw [hsize, length_of_partition_getElem? (Nat.lt_of_succ_lt hc) hchunk, chunkStop_of_lt hc,
      Nat.add_sub_cancel_left]
  · rw [List.getLast?_eq_getElem?] at hchunk
    obtain ⟨hc, -⟩ := List.getElem?_eq_some_iff.mp hchunk
    have hlast : (evaluator.partition items).length - 1 + 1 =
        evaluator.chunkCount items.length := by omega
    rw [hsize, length_of_partition_getElem? (hcount ▸ hc) hchunk, chunkStop_of_last hlast,
      Nat.add_sub_cancel_left, hcount]
  · obtain ⟨hp, -⟩ := List.getElem?_eq_some_iff.mp hitem
    obtain ⟨hc, hstart, hstop⟩ := chunk_bounds hworkers hp
    rw [hsize, hcount]
    refine ⟨_, _, rfl, partition_getElem? items hc, ?_⟩
    show (List.take _ _)[p - evaluator.chunkStart items.length _]? = some item
    rw [List.getElem?_take_of_lt (by omega), List.getElem?_drop, Nat.add_sub_cancel' hstart, hitem]

/-- Eight items for three workers. -/
theorem partition_cover_eight :
    (⟨3⟩ : Evaluator).slices (List.range 8) = .ok [[0, 1], [2, 3], [4, 5, 6, 7]] ∧
      EvenCover 3 (List.range 8) [[0, 1], [2, 3], [4, 5, 6, 7]] :=
  partition_cover (show 1 ≤ (⟨3⟩ : Evaluator).workers by decide) (List.range 8)

end Evaluator

end Moire
