import Mathlib
import Moire.Bands.Structure
import Moire.Proofs.Sorting

/-!
# The shift to half filling

The median is read off the sorted energies, by one index for an odd number of them and by two for an
even number, by any lawful sorter. `median_eq_some` writes it with two indices in both cases, from
which follow its order law, `IsMedian`, and that it moves along with the energies, `median_map_add`.
A band structure that is shifted by it has the median zero, so that a second shift finds nothing to
do.
-/

namespace Moire

variable {K : Type} [ExactScalar K]

/-! ## The median -/

/-- Sorted values go up. -/
theorem sorted_sortBy (values : List K) : (Number.sortBy id values).Pairwise (· ≤ ·) :=
  Number.sortBy_sorted id values

/-- Sorting keeps the values. -/
theorem perm_sortBy (values : List K) : (Number.sortBy id values).Perm values :=
  Number.sortBy_perm id values

/-- A list is sorted by what is a permutation in ascending order. -/
theorem sortBy_eq {values sorted : List K} (hperm : values.Perm sorted)
    (hsorted : sorted.Pairwise (· ≤ ·)) : Number.sortBy id values = sorted := by
  have hkeys : (values.map id).Perm sorted := by rwa [List.map_id]
  have h := Number.map_sortBy id hkeys hsorted
  rwa [List.map_id] at h

/-- Sorting forgets the order of the values. -/
theorem sortBy_perm_eq {values values' : List K} (h : values.Perm values') :
    Number.sortBy id values = Number.sortBy id values' :=
  sortBy_eq (h.trans (perm_sortBy values').symm) (sorted_sortBy values')

/-- Moving all values by the same amount does not change how they are sorted. -/
theorem sortBy_map_add (values : List K) (c : K) :
    Number.sortBy id (values.map (· + c)) = (Number.sortBy id values).map (· + c) := by
  refine sortBy_eq ((perm_sortBy values).symm.map _) (List.pairwise_map.mpr ?_)
  exact (sorted_sortBy values).imp fun h ↦ by gcongr

section

variable {sort : Sorter K} (hsort : sort.Lawful)

include hsort

/-- The median is the mean of two values in the middle, which are the same one if the number of
values is odd. -/
theorem median_eq_some {values : List K} (hne : values ≠ []) : ∃ below above,
    (Number.sortBy id values)[(values.length - 1) / 2]? = some below ∧
      (Number.sortBy id values)[values.length / 2]? = some above ∧
      median sort values = .ok (some ((below + above) / 2)) := by
  have hlength := (perm_sortBy values).length_eq
  have hpos : 0 < values.length := List.length_pos_iff.mpr hne
  have hempty : ¬ values.isEmpty = true := by rwa [List.isEmpty_iff]
  rw [median, if_neg hempty, hsort.sort_eq]
  dsimp only
  generalize Number.sortBy id values = sorted at hlength ⊢
  have hbelow : (values.length - 1) / 2 < sorted.length := by omega
  have habove : values.length / 2 < sorted.length := by omega
  refine ⟨_, _, List.getElem?_eq_getElem hbelow, List.getElem?_eq_getElem habove, ?_⟩
  rw [hlength, entry_eq_ok (List.getElem?_eq_getElem habove)]
  split
  next heven =>
    have hindex : values.length / 2 - 1 = (values.length - 1) / 2 := by omega
    rw [hindex, entry_eq_ok (List.getElem?_eq_getElem hbelow), ExactField.two_eq]
    rfl
  next hodd =>
    have hindex : (values.length - 1) / 2 = values.length / 2 := by omega
    simp only [hindex, add_self_div_two]
    rfl

/-- The median does not depend on the order of the values. -/
theorem median_perm {values values' : List K} (h : values.Perm values') :
    median sort values = median sort values' := by
  unfold median
  rw [hsort.sort_eq, hsort.sort_eq, sortBy_perm_eq h, h.isEmpty_eq]

/-- The median moves along with the values. -/
theorem median_map_add (values : List K) (c : K) : ∃ middle, median sort values = .ok middle ∧
    median sort (values.map (· + c)) = .ok (middle.map (· + c)) := by
  by_cases hnil : values = []
  · rw [hnil]
    exact ⟨none, rfl, rfl⟩
  · have hne : values.map (· + c) ≠ [] := mt List.map_eq_nil_iff.mp hnil
    obtain ⟨below, above, hbelow, habove, hmedian⟩ := median_eq_some hsort hnil
    obtain ⟨below', above', hbelow', habove', hmedian'⟩ := median_eq_some hsort hne
    rw [List.length_map, sortBy_map_add, List.getElem?_map] at hbelow' habove'
    rw [hbelow, Option.map_some, Option.some.injEq] at hbelow'
    rw [habove, Option.map_some, Option.some.injEq] at habove'
    refine ⟨_, hmedian, ?_⟩
    rw [hmedian', Option.map_some, ← hbelow', ← habove']
    congr 2
    ring

end

/-- At least half of the values are not above the middle, and at least half are not below it. -/
structure IsMedian (values : List K) (middle : K) : Prop where
  below : values.length ≤ 2 * values.countP (· ≤ middle)
  above : values.length ≤ 2 * values.countP (middle ≤ ·)

omit [ExactScalar K] in
/-- A property that passes to all entries in front holds of all entries up to an index. -/
theorem lt_countP {r : K → K → Prop} {p : K → Bool} {entries : List K}
    (hpairwise : entries.Pairwise r) (hfront : ∀ a b, r a b → p b = true → p a = true) {i : ℕ}
    {x : K} (hx : entries[i]? = some x) (hpx : p x = true) : i < entries.countP p := by
  induction entries generalizing i with
  | nil => cases hx
  | cons a rest ih =>
      obtain ⟨ha, hrest⟩ := List.pairwise_cons.mp hpairwise
      cases i with
      | zero =>
          cases hx
          rw [List.countP_cons_of_pos hpx]
          exact Nat.succ_pos _
      | succ i =>
          rw [List.getElem?_cons_succ] at hx
          have hpa : p a = true := hfront a x (ha x (List.mem_of_getElem? hx)) hpx
          rw [List.countP_cons_of_pos hpa]
          exact Nat.succ_lt_succ (ih hrest hx)

/-- The median lies in the middle of the values. -/
theorem exists_isMedian {sort : Sorter K} (hsort : sort.Lawful) {values : List K}
    (hne : values ≠ []) :
    ∃ middle, median sort values = .ok (some middle) ∧ IsMedian values middle := by
  obtain ⟨below, above, hbelow, habove, hmedian⟩ := median_eq_some hsort hne
  have hperm := perm_sortBy values
  have hsorted := sorted_sortBy values
  have hlength := hperm.length_eq
  have hpos : 0 < values.length := List.length_pos_iff.mpr hne
  have hle : below ≤ above := by
    obtain ⟨hi, rfl⟩ := List.getElem?_eq_some_iff.mp hbelow
    obtain ⟨hj, rfl⟩ := List.getElem?_eq_some_iff.mp habove
    exact hsorted.sortedLE.getElem_le_getElem_of_le (by omega)
  have hmiddle : below ≤ (below + above) / 2 ∧ (below + above) / 2 ≤ above := by
    constructor <;> linarith
  refine ⟨_, hmedian, ?_, ?_⟩
  · have hcount := lt_countP (p := (· ≤ (below + above) / 2)) hsorted
      (fun a b hab hb ↦ decide_eq_true (hab.trans (of_decide_eq_true hb))) hbelow
      (decide_eq_true hmiddle.1)
    rw [hperm.countP_eq] at hcount
    omega
  · -- From the upper end the values are in descending order.
    have hmirror : (Number.sortBy id values).reverse[values.length - 1 - values.length / 2]? =
        some above := by
      rw [List.getElem?_reverse (by omega), hlength, ← habove]
      congr 1
      omega
    have hcount := lt_countP (p := ((below + above) / 2 ≤ ·)) (List.pairwise_reverse.mpr hsorted)
      (fun a b hab hb ↦ decide_eq_true ((of_decide_eq_true hb).trans hab)) hmirror
      (decide_eq_true hmiddle.2)
    rw [List.countP_reverse, hperm.countP_eq] at hcount
    omega

/-! ## The shift -/

namespace BandStructure

/-- Moved energies are moved by the median, also where it is zero. -/
theorem ofPathEnergies_eq {sort : Sorter K} {energies : List (List K)} {middle : Option K}
    (h : median sort energies.flatten = .ok middle) (labels : List String)
    (labelPositions : List ℕ) :
    ofPathEnergies sort energies labels labelPositions true =
      .ok ⟨energies.map fun row ↦ row.map (· - middle.getD 0), labels, labelPositions,
        middle.getD 0⟩ := by
  rw [ofPathEnergies, if_pos rfl, h, ExactField.zero_eq]
  show (Except.ok _ : Outcome _) = _
  congr 2
  split
  next hzero =>
    rw [of_decide_eq_true hzero]
    simp
  next => rfl

/-- The energies of a band structure are given ones, moved so that their median is zero. -/
structure Centres (sort : Sorter K) (shifted : BandStructure K) (energies : List (List K)) :
    Prop where
  median_eq : energies.flatten ≠ [] → median sort shifted.energies.flatten = .ok (some 0)
  restored : shifted.energies.map (fun row ↦ row.map (· + shifted.halfFillingEnergy)) = energies
  /-- A second shift moves nothing. -/
  settled : ofPathEnergies sort shifted.energies shifted.labels shifted.labelPositions true =
    .ok { shifted with halfFillingEnergy := 0 }

/-- The median of energies that are moved by their median is zero, if there are any. -/
theorem exists_median_moved {sort : Sorter K} (hsort : sort.Lawful) (energies : List (List K)) :
    ∃ middle, median sort energies.flatten = .ok middle ∧
      median sort (energies.map fun row ↦ row.map (· - middle.getD 0)).flatten =
        .ok (middle.map fun _ ↦ 0) := by
  obtain ⟨middle, hmiddle, -⟩ := median_map_add hsort energies.flatten 0
  obtain ⟨same, hsame, hmoved⟩ := median_map_add hsort energies.flatten (-middle.getD 0)
  obtain rfl : middle = same := Except.ok.inj (hmiddle.symm.trans hsame)
  refine ⟨middle, hmiddle, ?_⟩
  have hpooled : (energies.map fun row ↦ row.map (· - middle.getD 0)).flatten =
      energies.flatten.map (· + -middle.getD 0) := by
    rw [List.map_flatten]
    simp only [sub_eq_add_neg]
  rw [hpooled, hmoved]
  cases middle <;> simp

/-- The shift puts the median at zero. -/
theorem centres_ofPathEnergies {sort : Sorter K} (hsort : sort.Lawful) (energies : List (List K))
    (labels : List String) (labelPositions : List ℕ) :
    ∃ shifted, ofPathEnergies sort energies labels labelPositions true = .ok shifted ∧
      shifted.Centres sort energies := by
  obtain ⟨middle, hmiddle, hmoved⟩ := exists_median_moved hsort energies
  refine ⟨_, ofPathEnergies_eq hmiddle labels labelPositions, ?_, ?_, ?_⟩
  · intro hne
    obtain ⟨value, hvalue, -⟩ := exists_isMedian hsort hne
    obtain rfl : middle = some value := Except.ok.inj (hmiddle.symm.trans hvalue)
    exact hmoved
  · simp [Function.comp_def]
  · -- The second shift is by the median zero, or by none at all.
    rw [ofPathEnergies_eq hmoved]
    cases middle <;> simp

end BandStructure

/-- The median does not depend on the order of the values, lies in their middle, and moves along
with them. So a band structure that is shifted by it has the median zero, can be shifted back, and
is left as it is by a second shift. All this is so for every lawful sorter. -/
theorem half_filling_shift (K : Type) [ExactScalar K] {sort : Sorter K} (hsort : sort.Lawful) :
    (∀ values values' : List K, values.Perm values' → median sort values = median sort values') ∧
    (∀ values : List K, values ≠ [] →
      ∃ middle, median sort values = .ok (some middle) ∧ IsMedian values middle) ∧
    (∀ (values : List K) (c : K), ∃ middle, median sort values = .ok middle ∧
      median sort (values.map (· + c)) = .ok (middle.map (· + c))) ∧
    ∀ (energies : List (List K)) (labels : List String) (labelPositions : List ℕ), ∃ shifted,
      BandStructure.ofPathEnergies sort energies labels labelPositions true = .ok shifted ∧
        shifted.Centres sort energies :=
  ⟨fun _ _ ↦ median_perm hsort, fun _ ↦ exists_isMedian hsort, median_map_add hsort,
    BandStructure.centres_ofPathEnergies hsort⟩

section

attribute [local instance] ExactScalar.rational

/-- Four energies in rows of different lengths, with the median five halves. -/
theorem half_filling_shift_four :
    (Sorter.strict : Sorter ℚ).Lawful ∧
      median .strict ([3, 1, 6, 2] : List ℚ) = median .strict [1, 2, 3, 6] ∧
      IsMedian ([3, 1, 6, 2] : List ℚ) (5 / 2) ∧
      ∃ shifted, BandStructure.ofPathEnergies .strict ([[3, 1, 6], [], [2]] : List (List ℚ))
          ["K", "Γ"] [0, 2] true = .ok shifted ∧
        median .strict shifted.energies.flatten = .ok (some 0) := by
  have hsort : (Sorter.strict : Sorter ℚ).Lawful := Sorter.lawful_strict
  obtain ⟨hperm, hmiddle, -, hcentres⟩ := half_filling_shift ℚ hsort
  have hmedian : (median .strict ([3, 1, 6, 2] : List ℚ)).toOption = some (some (5 / 2)) := by
    decide +kernel
  obtain ⟨middle, hsome, his⟩ := hmiddle [3, 1, 6, 2] (by simp)
  rw [hsome] at hmedian
  obtain rfl : middle = 5 / 2 := Option.some.inj (Option.some.inj hmedian)
  obtain ⟨shifted, hshifted, hcentred⟩ := hcentres [[3, 1, 6], [], [2]] ["K", "Γ"] [0, 2]
  exact ⟨hsort, hperm _ _ (by decide), his, shifted, hshifted, hcentred.median_eq (by simp)⟩

end

end Moire
