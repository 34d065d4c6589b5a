import Mathlib
import Moire.Bands.Histogram
import Moire.Proofs.ExactField

/-!
# What a histogram counts

The bin of a value is found by one division, and the edges of the bins are computed apart from it. A
bin counts the values that are sorted into it, for all numbers, `countBins_eq`. Over an
ordered field these are the values between the edges of the bin, `binOf_eq_some_iff`, so that a
histogram is what its edges say, `Sorts`. Read `create_exact` last, which adds the range of the
edges and the histograms whose edges do not fit into memory.
-/

namespace Moire.Histogram

/-! ## Counting -/

/-- Bins that are there count the values that go there. -/
theorem exists_foldlM_tally (places : List (Option ℕ)) (counts : Array ℕ)
    (h : ∀ b, some b ∈ places → b < counts.size) :
    ∃ after, places.foldlM tally counts = .ok after ∧
      ∀ b, after[b]? = counts[b]?.map (· + places.count (some b)) := by
  induction places generalizing counts with
  | nil => exact ⟨counts, rfl, by simp⟩
  | cons place places ih =>
      cases place with
      | none =>
          obtain ⟨after, hafter, hcounts⟩ := ih counts fun b hb ↦ h b (List.mem_cons_of_mem _ hb)
          refine ⟨after, hafter, fun b ↦ ?_⟩
          rw [hcounts, List.count_cons_of_ne (Option.some_ne_none b).symm]
      | some c =>
          have hsize : (counts.modify c (· + 1)).size = counts.size := Array.size_modify
          obtain ⟨after, hafter, hcounts⟩ := ih (counts.modify c (· + 1)) fun b hb ↦
            hsize.symm ▸ h b (List.mem_cons_of_mem _ hb)
          have htally : tally counts (some c) = .ok (counts.modify c (· + 1)) :=
            if_pos (h c List.mem_cons_self)
          refine ⟨after, ?_, fun b ↦ ?_⟩
          · rw [List.foldlM_cons, htally]
            exact hafter
          · rw [hcounts, Array.getElem?_modify, List.count_cons]
            by_cases hc : c = b
            · rw [if_pos hc, Option.map_map, hc, if_pos (beq_self_eq_true _)]
              congr 1
              funext count
              exact (add_assoc ..).trans (congrArg (count + ·) (add_comm ..))
            · rw [if_neg hc, if_neg (by simpa using hc), add_zero]

section

variable {α : Type} [Number α] {lower upper width : α} {bins : ℕ} {values : List α}

/-- The number of values that are sorted into each bin. -/
def binCounts (lower upper width : α) (bins : ℕ) (values : List α) : List ℕ :=
  (List.range bins).map fun b ↦ values.countP fun v ↦ binOf lower upper width bins v = some b

/-- There is a count for each bin. -/
theorem length_binCounts : (binCounts lower upper width bins values).length = bins := by
  rw [binCounts, List.length_map, List.length_range]

/-- The count of a bin is the number of values that are sorted into it. -/
theorem getElem?_binCounts {b : ℕ} (hb : b < bins) :
    (binCounts lower upper width bins values)[b]? =
      some (values.countP fun v ↦ binOf lower upper width bins v = some b) := by
  simp [binCounts, hb]

/-- The bin of a value is one of the bins. -/
theorem binOf_lt (hbins : 0 < bins) {v : α} {b : ℕ} (h : binOf lower upper width bins v = some b) :
    b < bins := by
  unfold binOf at h
  split at h
  · cases h
  · cases h
    omega

/-- No bin is looked up that is not there, and each counts the values that are sorted into it. -/
theorem countBins_eq (hbins : 0 < bins) :
    countBins lower upper width bins values = .ok (binCounts lower upper width bins values) := by
  have hplaces : ∀ b, some b ∈ values.map (binOf lower upper width bins) →
      b < (Array.replicate bins 0).size := by
    intro b hb
    obtain ⟨v, -, hv⟩ := List.mem_map.mp hb
    rw [Array.size_replicate]
    exact binOf_lt hbins hv
  obtain ⟨after, hafter, hcounts⟩ := exists_foldlM_tally _ _ hplaces
  rw [List.foldlM_map] at hafter
  have hlist : after.toList = binCounts lower upper width bins values := by
    apply List.ext_getElem?
    intro b
    rw [Array.getElem?_toList, hcounts, Array.getElem?_replicate]
    by_cases hb : b < bins
    · rw [if_pos hb, Option.map_some, zero_add, getElem?_binCounts hb, List.count, List.countP_map]
      exact congrArg some (List.countP_congr fun v _ ↦ by simp)
    · rw [if_neg hb, List.getElem?_eq_none (length_binCounts.le.trans (not_lt.mp hb))]
      rfl
  rw [countBins, hafter, ← hlist]
  rfl

/-- Every value that has a bin is counted once. -/
theorem foldl_binCounts (hbins : 0 < bins) :
    (binCounts lower upper width bins values).foldl (· + ·) 0 =
      values.countP fun v ↦ (binOf lower upper width bins v).isSome := by
  rw [binCounts, ← List.sum_eq_foldl, ← List.sum_toFinset _ List.nodup_range, List.toFinset_range]
  induction values with
  | nil => simp
  | cons v values ih =>
      simp only [List.countP_cons, Finset.sum_add_distrib, ih]
      congr 1
      cases hv : binOf lower upper width bins v with
      | none => simp
      | some b => simp [binOf_lt hbins hv]

/-- There are bins, and the range is finite and in order. -/
structure Valid (values : List α) (bins : ℕ) (range : Option (α × α)) : Prop where
  bins_ne_zero : bins ≠ 0
  finite_lower : Number.isFinite (range.getD (extent values)).1 = true
  finite_upper : Number.isFinite (range.getD (extent values)).2 = true
  ordered : Number.lt (range.getD (extent values)).2 (range.getD (extent values)).1 = false

/-- The ends of the edges. A range without extent is widened by a half on both sides. -/
def edgeRange (ends : α × α) : α × α :=
  if Number.eq ends.1 ends.2 then (ends.1 - 1 / 2, ends.2 + 1 / 2) else ends

/-- The histogram over the given ends of the edges. -/
def ofEnds (ends : α × α) (bins : ℕ) (values : List α) : Histogram α where
  edges := (List.range (bins + 1)).map fun i ↦
    ends.1 + (ends.2 - ends.1) / Number.ofNat bins * Number.ofNat i
  counts := binCounts ends.1 ends.2 ((ends.2 - ends.1) / Number.ofNat bins) bins values

/-- A histogram with bins has a width. -/
theorem binWidth_ofEnds (ends : α × α) (hbins : bins ≠ 0) (values : List α) :
    (ofEnds ends bins values).binWidth =
      .ok ((ends.1 + (ends.2 - ends.1) / Number.ofNat bins * Number.ofNat 1) -
        (ends.1 + (ends.2 - ends.1) / Number.ofNat bins * Number.ofNat 0)) := by
  have hedge {i : ℕ} (hi : i < bins + 1) : (ofEnds ends bins values).edges[i]? =
      some (ends.1 + (ends.2 - ends.1) / Number.ofNat bins * Number.ofNat i) := by
    simp [ofEnds, hi]
  rw [binWidth, entry_eq_ok (hedge (i := 1) (by omega)), entry_eq_ok (hedge (i := 0) (by omega))]
  rfl

variable {range : Option (α × α)}

/-- Over a valid range values are sorted into any bins whose edges fit into memory. -/
theorem create_of_valid (h : Valid values bins range) :
    create values bins range = (do
      reserve (bins + 1) 8
      return ofEnds (edgeRange (range.getD (extent values))) bins values) := by
  obtain ⟨hbins, hlower, hupper, hordered⟩ := h
  have hvalid : ¬ (!Number.isFinite (range.getD (extent values)).1 ||
      !Number.isFinite (range.getD (extent values)).2 ||
      Number.lt (range.getD (extent values)).2 (range.getD (extent values)).1) = true := by
    simp [hlower, hupper, hordered]
  simp only [create, if_neg hbins, if_neg hvalid, countBins_eq (Nat.pos_of_ne_zero hbins)]
  rfl

/-- Without bins or over any other range nothing is sorted. -/
theorem create_of_not_valid (h : ¬ Valid values bins range) :
    ∃ cause, create values bins range = fail cause := by
  unfold create
  dsimp only
  by_cases hbins : bins = 0
  · rw [if_pos hbins]
    exact ⟨_, rfl⟩
  · rw [if_neg hbins, if_pos]
    · exact ⟨_, rfl⟩
    · by_contra hvalid
      simp only [Bool.or_eq_true, Bool.not_eq_true', not_or, Bool.not_eq_false] at hvalid
      exact h ⟨hbins, hvalid.1.1, hvalid.1.2, Bool.eq_false_of_not_eq_true hvalid.2⟩

/-- A histogram that is there has a valid range and edges that fit into memory. -/
theorem create_eq_ok {histogram : Histogram α} : create values bins range = .ok histogram ↔
    Valid values bins range ∧ (bins + 1) * 8 < memoryLimit ∧
      histogram = ofEnds (edgeRange (range.getD (extent values))) bins values := by
  by_cases hvalid : Valid values bins range
  · rw [create_of_valid hvalid, bind_eq_ok]
    unfold reserve
    split
    next hmemory => simp [hvalid, hmemory, pure, Except.pure, eq_comm]
    next hmemory => simp [hmemory, breakDown]
  · obtain ⟨cause, hcause⟩ := create_of_not_valid hvalid
    simp [hcause, hvalid, fail]

end

/-! ## Bins of an ordered field -/

section

variable {K : Type} [ExactField K] {lower upper v : K} {bins b : ℕ}

/-- The edge in front of a bin. -/
def edge (lower upper : K) (bins b : ℕ) : K := lower + (upper - lower) / bins * b

/-- The first edge is the lower end. -/
theorem edge_zero (lower upper : K) (bins : ℕ) : edge lower upper bins 0 = lower := by
  simp [edge]

/-- The last edge is the upper end. -/
theorem edge_self (lower upper : K) (hbins : 0 < bins) : edge lower upper bins bins = upper := by
  have hbins' : (bins : K) ≠ 0 := Nat.cast_ne_zero.mpr hbins.ne'
  rw [edge, div_mul_cancel₀ _ hbins', add_sub_cancel]

/-- Bins over a proper range have a positive width. -/
theorem width_pos (h : lower < upper) (hbins : 0 < bins) : 0 < (upper - lower) / (bins : K) :=
  div_pos (sub_pos.mpr h) (Nat.cast_pos.mpr hbins)

/-- The edges go up. -/
theorem edge_mono (h : lower < upper) (hbins : 0 < bins) : Monotone (edge lower upper bins) := by
  intro b c hbc
  unfold edge
  have hwidth := (width_pos h hbins).le
  gcongr

/-- An edge is at most a value when the number of steps from the lower end is. -/
theorem edge_le_iff (h : lower < upper) (hbins : 0 < bins) :
    edge lower upper bins b ≤ v ↔ (b : K) ≤ (v - lower) / ((upper - lower) / bins) := by
  rw [le_div_iff₀ (width_pos h hbins), edge, mul_comm, le_sub_iff_add_le']

/-- A value is sorted into the bin between whose edges it lies. The upper edge belongs to the last
bin alone. -/
theorem binOf_eq_some_iff (h : lower < upper) (hbins : bins < countLimit) (hb : b < bins) :
    binOf lower upper ((upper - lower) / bins) bins v = some b ↔
      edge lower upper bins b ≤ v ∧
        (v < edge lower upper bins (b + 1) ∨ b + 1 = bins ∧ v ≤ edge lower upper bins (b + 1)) := by
  have hpos : 0 < bins := Nat.zero_lt_of_lt hb
  have hlast : edge lower upper bins (b + 1) ≤ upper :=
    (edge_mono h hpos (Nat.succ_le_of_lt hb)).trans_eq (edge_self lower upper hpos)
  have hfirst : lower ≤ edge lower upper bins b :=
    (edge_zero lower upper bins).symm.trans_le (edge_mono h hpos (Nat.zero_le b))
  by_cases hrange : v < lower ∨ upper < v
  · have hnone : binOf lower upper ((upper - lower) / bins) bins v = none :=
      if_pos (by simpa using hrange)
    rw [hnone]
    refine iff_of_false nofun ?_
    rintro ⟨hlow, hhigh⟩
    have hhigh' : v ≤ edge lower upper bins (b + 1) := hhigh.elim le_of_lt And.right
    exact hrange.elim (hfirst.trans hlow).not_gt (hhigh'.trans hlast).not_gt
  · obtain ⟨hlow, hhigh⟩ := not_or.mp hrange
    have hbin : binOf lower upper ((upper - lower) / bins) bins v =
        some (min (Number.toNat ((v - lower) / ((upper - lower) / bins))) (bins - 1)) :=
      if_neg (by simpa using not_or.mpr ⟨hlow, hhigh⟩)
    have hsteps : 0 ≤ (v - lower) / ((upper - lower) / bins) :=
      div_nonneg (sub_nonneg.mpr (not_lt.mp hlow)) (width_pos h hpos).le
    have hle := ExactField.le_toNat_iff hsteps (hb.trans hbins)
    have hnext := ExactField.le_toNat_iff hsteps (n := b + 1) (by omega)
    rw [← edge_le_iff h hpos] at hle hnext
    rw [hbin, Option.some.injEq, ← hle, ← not_le, ← hnext]
    have hupper : b + 1 = bins → v ≤ edge lower upper bins (b + 1) := by
      rintro rfl
      exact (not_lt.mp hhigh).trans_eq (edge_self lower upper hpos).symm
    constructor
    · intro hmin
      refine ⟨by omega, ?_⟩
      by_cases hb' : b + 1 = bins
      · exact Or.inr ⟨hb', hupper hb'⟩
      · exact Or.inl (by omega)
    · rintro ⟨hsteps', hless | ⟨hb', -⟩⟩ <;> omega

/-- A value is sorted into a bin just if it is in the range, ends included. -/
theorem isSome_binOf (lower upper width v : K) (bins : ℕ) :
    (binOf lower upper width bins v).isSome = decide (lower ≤ v ∧ v ≤ upper) := by
  by_cases hrange : v < lower ∨ upper < v
  · have hnone : binOf lower upper width bins v = none := if_pos (by simpa using hrange)
    have hout : ¬ (lower ≤ v ∧ v ≤ upper) := by rwa [not_and_or, not_le, not_le]
    rw [hnone, decide_eq_false hout]
    rfl
  · have hsome : binOf lower upper width bins v = some _ := if_neg (by simpa using hrange)
    have hin : lower ≤ v ∧ v ≤ upper := by rwa [not_or, not_lt, not_lt] at hrange
    rw [hsome, decide_eq_true hin]
    rfl

/-! ## The range -/

omit [ExactField K] in
/-- A fold that picks one of two values by a relation returns a value that is related to all. -/
theorem foldl_pick {r : K → K → Prop} (hrefl : ∀ x, r x x)
    (htrans : ∀ x y z, r x y → r y z → r x z) {pick : K → K → K}
    (hpick : ∀ x y, (pick x y = x ∨ pick x y = y) ∧ r (pick x y) x ∧ r (pick x y) y)
    (first : K) (rest : List K) :
    rest.foldl pick first ∈ first :: rest ∧ ∀ v ∈ first :: rest, r (rest.foldl pick first) v := by
  induction rest generalizing first with
  | nil => simpa using hrefl first
  | cons second rest ih =>
      obtain ⟨hmem, hall⟩ := ih (pick first second)
      obtain ⟨hor, hfirst, hsecond⟩ := hpick first second
      rw [List.forall_mem_cons] at hall
      rw [List.foldl_cons]
      refine ⟨?_, ?_⟩
      · rcases List.mem_cons.mp hmem with heq | hrest
        · rw [heq]
          rcases hor with hpicked | hpicked <;> simp [hpicked]
        · exact List.mem_cons_of_mem _ (List.mem_cons_of_mem _ hrest)
      · rw [List.forall_mem_cons, List.forall_mem_cons]
        exact ⟨htrans _ _ _ hall.1 hfirst, htrans _ _ _ hall.1 hsecond, hall.2⟩

/-- The extent of some values reaches from the least to the greatest. -/
theorem extent_eq {values : List K} (hne : values ≠ []) :
    IsLeast {v | v ∈ values} (extent values).1 ∧ IsGreatest {v | v ∈ values} (extent values).2 := by
  cases values with
  | nil => exact absurd rfl hne
  | cons first rest =>
      have hleast : ∀ x y : K, (least x y = x ∨ least x y = y) ∧ least x y ≤ x ∧ least x y ≤ y := by
        intro x y
        by_cases hlt : y < x
        · simp [least, hlt, hlt.le]
        · simp [least, hlt, not_lt.mp hlt]
      have hgreatest : ∀ x y : K,
          (greatest x y = x ∨ greatest x y = y) ∧ greatest x y ≥ x ∧ greatest x y ≥ y := by
        intro x y
        by_cases hlt : x < y
        · simp [greatest, hlt, hlt.le]
        · simp [greatest, hlt, not_lt.mp hlt]
      have hextent : extent (first :: rest) = (rest.foldl least first, rest.foldl greatest first) :=
        if_pos (ExactField.isNumber_eq _)
      rw [hextent]
      exact ⟨foldl_pick le_refl (fun _ _ _ ↦ le_trans) hleast first rest,
        foldl_pick (r := (· ≥ ·)) le_refl (fun _ _ _ hxy hyz ↦ hyz.trans hxy) hgreatest first rest⟩

/-- The ends of the range that values are sorted over: those that are given, or else those of the
values. Without any values it is the unit interval. -/
def Spans (values : List K) (range : Option (K × K)) (low high : K) : Prop :=
  match range with
  | some ends => ends = (low, high)
  | none => values = [] ∧ low = 0 ∧ high = 1 ∨
      IsLeast {v | v ∈ values} low ∧ IsGreatest {v | v ∈ values} high

/-- The range that is used is the given one or else that of the values. -/
theorem spans_getD (values : List K) (range : Option (K × K)) :
    Spans values range (range.getD (extent values)).1 (range.getD (extent values)).2 := by
  cases range with
  | some ends => rfl
  | none =>
      by_cases hnil : values = []
      · exact Or.inl ⟨hnil, by rw [hnil]; exact Nat.cast_zero, by rw [hnil]; exact Nat.cast_one⟩
      · exact Or.inr (extent_eq hnil)

/-- The ends of the range are in order, if those given are. -/
theorem Spans.le {values : List K} {range : Option (K × K)} {low high : K}
    (h : Spans values range low high) (hrange : ∀ ends ∈ range, ends.1 ≤ ends.2) : low ≤ high := by
  cases range with
  | some ends =>
      obtain rfl : ends = (low, high) := h
      exact hrange _ rfl
  | none =>
      rcases h with ⟨-, rfl, rfl⟩ | ⟨hlow, hhigh⟩
      · exact zero_le_one
      · exact hlow.2 hhigh.1

/-- A range without extent is widened by a half on both sides. -/
def widen (low high : K) : K × K :=
  if low = high then (low - 1 / 2, high + 1 / 2) else (low, high)

/-- A widened range is proper. -/
theorem widen_lt {low high : K} (h : low ≤ high) : (widen low high).1 < (widen low high).2 := by
  unfold widen
  split
  next heq =>
    rw [heq]
    have hhalf : (0 : K) < 1 / 2 := by positivity
    exact (sub_lt_self high hhalf).trans (lt_add_of_pos_right high hhalf)
  next hne => exact lt_of_le_of_ne h hne

/-- Widening takes nothing away. -/
theorem widen_le (low high : K) : (widen low high).1 ≤ low ∧ high ≤ (widen low high).2 := by
  have hhalf : (0 : K) ≤ 1 / 2 := by positivity
  unfold widen
  split
  · exact ⟨sub_le_self low hhalf, le_add_of_nonneg_right hhalf⟩
  · exact ⟨le_rfl, le_rfl⟩

/-- The range of the edges is the widened one. -/
theorem edgeRange_eq (ends : K × K) : edgeRange ends = widen ends.1 ends.2 := by
  simp only [edgeRange, widen, ExactField.eq_eq, decide_eq_true_eq, ExactField.one_eq]

/-- Over an ordered field every range in order is valid. -/
theorem valid_of_le {values : List K} {range : Option (K × K)} (hbins : bins ≠ 0)
    (h : (range.getD (extent values)).1 ≤ (range.getD (extent values)).2) :
    Valid values bins range :=
  ⟨hbins, rfl, rfl, decide_eq_false (not_lt.mpr h)⟩

/-- The edges over an ordered field, at equal distances. -/
theorem ofEnds_widen (values : List K) (low high : K) (bins : ℕ) :
    ofEnds (widen low high) bins values =
      ⟨(List.range (bins + 1)).map (edge (widen low high).1 (widen low high).2 bins),
        binCounts (widen low high).1 (widen low high).2
          (((widen low high).2 - (widen low high).1) / bins) bins values⟩ :=
  rfl

/-! ## Histograms -/

/-- The value lies between the edges of a bin. An upper edge belongs to the last bin alone. -/
def holds (histogram : Histogram K) (b : ℕ) (v : K) : Bool :=
  histogram.edges[b]?.any (· ≤ v) && histogram.edges[b + 1]?.any fun upper ↦
    v < upper || (b + 1 = histogram.counts.length && v ≤ upper)

/-- The histogram counts the values over a range in a number of bins. -/
structure Sorts (histogram : Histogram K) (values : List K) (bins : ℕ) (lower upper : K) :
    Prop where
  lower_lt_upper : lower < upper
  length_edges : histogram.edges.length = bins + 1
  head_edges : histogram.edges.head? = some lower
  getLast_edges : histogram.edges.getLast? = some upper
  /-- All bins have the same width. -/
  spacing : ∀ b < bins, ∃ low high, histogram.edges[b]? = some low ∧
    histogram.edges[b + 1]? = some high ∧ high - low = (upper - lower) / bins
  length_counts : histogram.counts.length = bins
  /-- A bin counts what lies between its edges. -/
  count : ∀ b < bins, histogram.counts[b]? = some (values.countP (histogram.holds b))
  /-- What lies outside the range is in no bin. -/
  outside : ∀ v, v < lower ∨ upper < v → ∀ b < bins, histogram.holds b v = false
  /-- The bin that is computed for a value is there. -/
  binOf_lt : ∀ v b, binOf lower upper ((upper - lower) / bins) bins v = some b → b < bins
  total : histogram.total = values.countP fun v ↦ lower ≤ v ∧ v ≤ upper

/-- Edges and counts that are computed apart from each other fit together. -/
theorem sorts_binCounts (values : List K) (h : lower < upper) (hpos : 0 < bins)
    (hbins : bins < countLimit) :
    Sorts ⟨(List.range (bins + 1)).map (edge lower upper bins),
      binCounts lower upper ((upper - lower) / bins) bins values⟩ values bins lower upper := by
  have hedge : ∀ b ≤ bins, ((List.range (bins + 1)).map (edge lower upper bins))[b]? =
      some (edge lower upper bins b) := by
    intro b hb
    simp [Nat.lt_succ_of_le hb]
  -- A value is in the bin that is computed for it, and in no other one.
  have hholds : ∀ b < bins, ∀ v, holds ⟨(List.range (bins + 1)).map (edge lower upper bins),
      binCounts lower upper ((upper - lower) / bins) bins values⟩ b v =
        decide (binOf lower upper ((upper - lower) / bins) bins v = some b) := by
    intro b hb v
    rw [Bool.eq_iff_iff, decide_eq_true_iff, binOf_eq_some_iff h hbins hb, holds, hedge b hb.le,
      hedge (b + 1) hb, length_binCounts]
    simp
  refine ⟨h, by simp, ?_, ?_, fun b hb ↦ ?_, length_binCounts, fun b hb ↦ ?_, fun v hv b hb ↦ ?_,
    fun v b ↦ binOf_lt hpos, ?_⟩
  · rw [List.head?_eq_getElem?, hedge 0 (Nat.zero_le _), edge_zero]
  · rw [List.getLast?_eq_getElem?, List.length_map, List.length_range, Nat.add_sub_cancel,
      hedge bins le_rfl, edge_self lower upper hpos]
  · refine ⟨_, _, hedge b hb.le, hedge (b + 1) hb, ?_⟩
    rw [edge, edge]
    push_cast
    ring
  · rw [getElem?_binCounts hb]
    exact congrArg some (List.countP_congr fun v _ ↦ by rw [hholds b hb v])
  · rw [hholds b hb v, decide_eq_false]
    intro hbin
    have hsome := isSome_binOf lower upper ((upper - lower) / bins) v bins
    rw [hbin, Option.isSome_some, eq_comm, decide_eq_true_iff] at hsome
    exact hv.elim hsome.1.not_gt hsome.2.not_gt
  · rw [total, foldl_binCounts hpos]
    exact List.countP_congr fun v _ ↦ by rw [isSome_binOf]

/-- Over their own range all values are counted. -/
theorem Spans.countP_eq {values : List K} {low high : K} (h : Spans values none low high) :
    values.countP (fun v ↦ (widen low high).1 ≤ v ∧ v ≤ (widen low high).2) = values.length := by
  rw [List.countP_eq_length]
  intro v hv
  obtain ⟨hlower, hupper⟩ := widen_le low high
  rcases h with ⟨rfl, -⟩ | ⟨hlow, hhigh⟩
  · cases hv
  · exact decide_eq_true ⟨hlower.trans (hlow.2 hv), (hhigh.2 hv).trans hupper⟩

/-- Bins that fit into memory are filled over every range that is given in order. -/
theorem exists_sorts (values : List K) (hbins : 1 ≤ bins)
    (hmemory : (bins + 1) * 8 < memoryLimit) {range : Option (K × K)}
    (hrange : ∀ ends ∈ range, ends.1 ≤ ends.2) :
    ∃ low high histogram, Spans values range low high ∧
      create values bins range = .ok histogram ∧
      histogram.Sorts values bins (widen low high).1 (widen low high).2 := by
  rcases hends : range.getD (extent values) with ⟨low, high⟩
  have hspans := spans_getD values range
  have hvalid := valid_of_le (Nat.one_le_iff_ne_zero.mp hbins) (hspans.le hrange)
  rw [hends] at hspans
  have hle : low ≤ high := hspans.le hrange
  have hcount : bins < countLimit := by
    unfold memoryLimit at hmemory
    unfold countLimit
    omega
  refine ⟨low, high, _, hspans, create_eq_ok.mpr ⟨hvalid, hmemory, rfl⟩, ?_⟩
  rw [hends, edgeRange_eq, ofEnds_widen]
  exact sorts_binCounts values (widen_lt hle) hbins hcount

/-- Bins that do not fit into memory cannot be filled. -/
theorem create_capacity (values : List K) (hbins : 1 ≤ bins)
    (hmemory : memoryLimit ≤ (bins + 1) * 8) {range : Option (K × K)}
    (hrange : ∀ ends ∈ range, ends.1 ≤ ends.2) :
    create values bins range = breakDown .capacityOverflow := by
  have hle := (spans_getD values range).le hrange
  rw [create_of_valid (valid_of_le (Nat.one_le_iff_ne_zero.mp hbins) hle), reserve,
    if_neg (not_lt.mpr hmemory)]
  rfl

/-- Values are sorted into any number of bins whose edges fit into memory, over a range that is
given in order or over their own one. A range without extent is widened. Without a range every value
is counted. More bins break the computation down. -/
theorem create_exact (values : List K) (hbins : 1 ≤ bins) {range : Option (K × K)}
    (hrange : ∀ ends ∈ range, ends.1 ≤ ends.2) :
    ((bins + 1) * 8 < memoryLimit → ∃ low high histogram, Spans values range low high ∧
      create values bins range = .ok histogram ∧
      histogram.Sorts values bins (widen low high).1 (widen low high).2 ∧
      (range = none → histogram.total = values.length)) ∧
    (memoryLimit ≤ (bins + 1) * 8 → create values bins range = breakDown .capacityOverflow) := by
  refine ⟨fun hmemory ↦ ?_, fun hmemory ↦ create_capacity values hbins hmemory hrange⟩
  obtain ⟨low, high, histogram, hspans, hcreate, hsorts⟩ := exists_sorts values hbins hmemory hrange
  refine ⟨low, high, histogram, hspans, hcreate, hsorts, fun hnone ↦ ?_⟩
  subst hnone
  rw [hsorts.total, hspans.countP_eq]

end

section

/-- Rationals read as fractions. -/
local instance : ExactField ℚ where
  text := toString
  fixed _ := toString

/-- Four values over their own range, the upper end of which is counted. -/
theorem create_exact_four : ∃ histogram : Histogram ℚ,
    create [1, 2, 5 / 2, 4] 3 none = .ok histogram ∧
      histogram.Sorts [1, 2, 5 / 2, 4] 3 1 4 ∧ histogram.total = 4 := by
  have hbins : 1 ≤ 3 := by decide
  have hrange : ∀ ends ∈ (none : Option (ℚ × ℚ)), ends.1 ≤ ends.2 := by simp
  obtain ⟨low, high, histogram, hspans, hcreate, hsorts, htotal⟩ :=
    (create_exact [1, 2, 5 / 2, 4] hbins hrange).1 (by decide)
  have hleast : IsLeast {v | v ∈ ([1, 2, 5 / 2, 4] : List ℚ)} 1 := by
    constructor
    · simp
    · intro v hv
      simp only [List.mem_cons, List.not_mem_nil, or_false, Set.mem_ofPred_eq] at hv
      rcases hv with rfl | rfl | rfl | rfl <;> norm_num
  have hgreatest : IsGreatest {v | v ∈ ([1, 2, 5 / 2, 4] : List ℚ)} 4 := by
    constructor
    · simp
    · intro v hv
      simp only [List.mem_cons, List.not_mem_nil, or_false, Set.mem_ofPred_eq] at hv
      rcases hv with rfl | rfl | rfl | rfl <;> norm_num
  rcases hspans with ⟨hnil, -⟩ | ⟨hlow, hhigh⟩
  · simp at hnil
  · obtain rfl : low = 1 := hlow.unique hleast
    obtain rfl : high = 4 := hhigh.unique hgreatest
    have hwiden : widen (1 : ℚ) 4 = (1, 4) := if_neg (by norm_num)
    rw [hwiden] at hsorts
    exact ⟨histogram, hcreate, hsorts, htotal rfl⟩

/-- A histogram with so many bins that their edges cannot be addressed. -/
theorem create_capacityOverflow : 1 ≤ 1152921504606846976 ∧
    create ([] : List ℚ) 1152921504606846976 none = breakDown .capacityOverflow := by
  exact ⟨by decide, create_capacity [] (by decide) (by decide) (by simp)⟩

end

end Moire.Histogram
