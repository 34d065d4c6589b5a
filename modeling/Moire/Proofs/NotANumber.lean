import Mathlib
import Moire.Proofs.HistogramBins

/-!
# Histograms of values that are not numbers

`Extended` adds to an ordered field a value that is not a number. It compares with nothing, so
neither the range of a histogram nor the test for values outside it sees it; but its cast to a count
is zero. `create_with_nan` says what follows: the edges are those of the numbers alone, and all that
is not a number is counted in the first bin.
-/

namespace Moire

/-- An exact value, or what is not a number. -/
inductive Extended (K : Type) where
  | number (x : K)
  | nan

namespace Extended

variable {K : Type}

/-- An operation on numbers. -/
def lift (operation : K → K → K) : Extended K → Extended K → Extended K
  | number x, number y => number (operation x y)
  | _, _ => nan

/-- A comparison of numbers. -/
def compares (relation : K → K → Bool) : Extended K → Extended K → Bool
  | number x, number y => relation x y
  | _, _ => false

variable [ExactField K]

/-- Division, which has no result if the divisor is zero. -/
def divide : Extended K → Extended K → Extended K
  | number x, number y => if y = 0 then nan else number (x / y)
  | _, _ => nan

/-- Exact numbers are computed with as in their field. -/
instance : Number (Extended K) where
  add := lift (· + ·)
  sub := lift (· - ·)
  mul := lift (· * ·)
  div := divide
  neg
    | number x => number (-x)
    | nan => nan
  ofNat n := number n
  lt := compares fun x y ↦ decide (x < y)
  le := compares fun x y ↦ decide (x ≤ y)
  eq := compares fun x y ↦ decide (x = y)
  isFinite
    | number _ => true
    | nan => false
  toNat
    | number x => Number.toNat x
    | nan => 0
  text
    | number x => ExactField.text x
    | nan => "NaN"
  fixed places
    | number x => ExactField.fixed places x
    | nan => "NaN"

@[simp] theorem isNumber_number (x : K) : Number.isNumber (number x) = true := decide_eq_true rfl
@[simp] theorem isNumber_nan : Number.isNumber (nan : Extended K) = false := rfl
@[simp] theorem nan_lt (y : Extended K) : Number.lt nan y = false := rfl
@[simp] theorem toNat_nan : Number.toNat (nan : Extended K) = 0 := rfl
@[simp] theorem nan_sub (y : Extended K) : nan - y = nan := rfl
@[simp] theorem nan_div (y : Extended K) : nan / y = nan := rfl

@[simp] theorem lt_nan (x : Extended K) : Number.lt x nan = false := by
  cases x <;> rfl

end Extended

namespace Histogram

open Extended (number nan)

variable {K : Type} [ExactField K]

/-! ## The range -/

/-- The choice is one of two values, and the number where only one of them is a number. -/
structure IgnoresNan (pick : Extended K → Extended K → Extended K) : Prop where
  one_of : ∀ v w, pick v w = v ∨ pick v w = w
  keep : ∀ x, pick (number x) nan = number x
  take : ∀ w, pick nan w = w

/-- The smaller of two ignores what is not a number. -/
theorem ignoresNan_least : IgnoresNan (least : Extended K → Extended K → Extended K) where
  one_of v w := by
    unfold least
    split
    · exact Or.inr rfl
    · split
      · exact Or.inr rfl
      · exact Or.inl rfl
  keep x := by simp [least]
  take w := by simp [least]

/-- The larger of two ignores what is not a number. -/
theorem ignoresNan_greatest : IgnoresNan (greatest : Extended K → Extended K → Extended K) where
  one_of v w := by
    unfold greatest
    split
    · exact Or.inr rfl
    · split
      · exact Or.inr rfl
      · exact Or.inl rfl
  keep x := by simp [greatest]
  take w := by simp [greatest]

section

variable {pick : Extended K → Extended K → Extended K} (h : IgnoresNan pick)

include h

/-- A fold that starts from a number passes over what is not a number. -/
theorem IgnoresNan.foldl_number (rest : List (Extended K)) (x : K) :
    rest.foldl pick (number x) = (rest.filter Number.isNumber).foldl pick (number x) := by
  induction rest generalizing x with
  | nil => rfl
  | cons v rest ih =>
      cases v with
      | number y =>
          rw [List.filter_cons_of_pos (Extended.isNumber_number y), List.foldl_cons,
            List.foldl_cons]
          rcases h.one_of (number x) (number y) with hpick | hpick
          · rw [hpick, ih]
          · rw [hpick, ih]
      | nan => rw [List.filter_cons_of_neg (by simp), List.foldl_cons, h.keep, ih]

/-- A fold that starts from what is not a number begins anew with the first number. -/
theorem IgnoresNan.foldl_nan {rest others : List (Extended K)} {first : Extended K}
    (hrest : rest.filter Number.isNumber = first :: others) :
    rest.foldl pick nan = others.foldl pick first := by
  induction rest with
  | nil => cases hrest
  | cons v rest ih =>
      rw [List.foldl_cons, h.take]
      cases v with
      | number x =>
          rw [List.filter_cons_of_pos (Extended.isNumber_number x)] at hrest
          cases hrest
          exact h.foldl_number rest x
      | nan =>
          rw [List.filter_cons_of_neg (by simp)] at hrest
          exact ih hrest

/-- Over a list with some numbers the fold is that of the numbers. -/
theorem IgnoresNan.foldl_filter {first first' : Extended K} {rest rest' : List (Extended K)}
    (hvalues : (first :: rest).filter Number.isNumber = first' :: rest') :
    rest.foldl pick first = rest'.foldl pick first' := by
  rw [← h.foldl_nan hvalues, List.foldl_cons, h.take]

end

/-- What is not a number does not change the extent of some numbers. -/
theorem extent_filter {values : List (Extended K)} (hne : values.filter Number.isNumber ≠ []) :
    extent values = extent (values.filter Number.isNumber) := by
  obtain ⟨first', rest', hvalues⟩ := List.exists_cons_of_ne_nil hne
  cases values with
  | nil => exact absurd rfl hne
  | cons first rest =>
      rw [hvalues, extent, extent, ignoresNan_least.foldl_filter hvalues,
        ignoresNan_greatest.foldl_filter hvalues]

/-! ## The counts -/

/-- The values of a histogram matter through their extent and their counts alone. -/
theorem create_of_extent {α : Type} [Number α] {values values' : List α} {bins : ℕ}
    {range : Option (α × α)} {histogram : Histogram α} (hextent : extent values = extent values')
    (h : create values' bins range = .ok histogram) :
    bins ≠ 0 ∧ ∃ lower upper width, histogram.counts = binCounts lower upper width bins values' ∧
      create values bins range =
        .ok ⟨histogram.edges, binCounts lower upper width bins values⟩ := by
  obtain ⟨hvalid, hmemory, rfl⟩ := create_eq_ok.mp h
  obtain ⟨hbins, hlower, hupper, hordered⟩ := hvalid
  rw [← hextent] at hlower hupper hordered ⊢
  exact ⟨hbins, _, _, _, rfl,
    create_eq_ok.mpr ⟨⟨hbins, hlower, hupper, hordered⟩, hmemory, rfl⟩⟩

/-- What is not a number goes into the first bin. -/
theorem binOf_nan (lower upper width : Extended K) (bins : ℕ) :
    binOf lower upper width bins nan = some 0 := by
  simp [binOf]

/-- The values of a bin are the numbers among them and, in the first bin, all other ones. -/
theorem countP_binOf (lower upper width : Extended K) (bins b : ℕ) (values : List (Extended K)) :
    values.countP (fun v ↦ binOf lower upper width bins v = some b) =
      (values.filter Number.isNumber).countP (fun v ↦ binOf lower upper width bins v = some b) +
        if 0 = b then values.countP fun v ↦ !Number.isNumber v else 0 := by
  induction values with
  | nil => simp
  | cons v values ih =>
      cases v with
      | number x =>
          rw [List.filter_cons_of_pos (Extended.isNumber_number x), List.countP_cons,
            List.countP_cons, ih, List.countP_cons_of_neg (by simp)]
          exact add_right_comm ..
      | nan =>
          rw [List.filter_cons_of_neg (by simp), List.countP_cons, ih, binOf_nan,
            List.countP_cons_of_pos (by simp)]
          by_cases hb : 0 = b
          · simp [hb, add_assoc]
          · simp [hb]

/-- What is not a number is counted in the first bin and changes no other count. -/
theorem binCounts_filter (lower upper width : Extended K) (bins : ℕ) (values : List (Extended K)) :
    binCounts lower upper width bins values =
      (binCounts lower upper width bins (values.filter Number.isNumber)).modify 0
        (· + values.countP fun v ↦ !Number.isNumber v) := by
  apply List.ext_getElem?
  intro b
  rw [List.getElem?_modify]
  by_cases hb : b < bins
  · rw [getElem?_binCounts hb, getElem?_binCounts hb, countP_binOf]
    by_cases hfirst : 0 = b
    · simp [hfirst]
    · simp [hfirst]
  · have hout : ∀ values : List (Extended K),
        (binCounts lower upper width bins values)[b]? = none := fun values ↦
      List.getElem?_eq_none (length_binCounts.le.trans (not_lt.mp hb))
    rw [hout, hout]
    rfl

/-- A histogram of numbers and other values has the edges of the numbers. Its first bin counts all
that is not a number besides the numbers there, so it is the histogram of the numbers only if there
is nothing else. -/
theorem create_with_nan {values : List (Extended K)} {bins : ℕ}
    {range : Option (Extended K × Extended K)} {histogram : Histogram (Extended K)}
    (hne : values.filter Number.isNumber ≠ [])
    (h : create (values.filter Number.isNumber) bins range = .ok histogram) :
    ∃ full, create values bins range = .ok full ∧ full.edges = histogram.edges ∧
      full.counts = histogram.counts.modify 0
        (· + values.countP fun v ↦ !Number.isNumber v) ∧
      full.total = histogram.total + values.countP (fun v ↦ !Number.isNumber v) ∧
      (full.counts = histogram.counts ↔ ∀ v ∈ values, Number.isNumber v = true) := by
  obtain ⟨hbins, lower, upper, width, hcounts, hcreate⟩ := create_of_extent (extent_filter hne) h
  rw [binCounts_filter, ← hcounts] at hcreate
  obtain ⟨count, counts, hcons⟩ : ∃ count counts, histogram.counts = count :: counts := by
    refine List.exists_cons_of_length_pos ?_
    rw [hcounts, length_binCounts]
    exact Nat.pos_of_ne_zero hbins
  refine ⟨_, hcreate, rfl, rfl, ?_, ?_⟩
  · simp only [total, ← List.sum_eq_foldl, hcons, List.modify_zero_cons, List.sum_cons]
    exact add_right_comm ..
  · simp [hcons]

section

attribute [local instance] ExactScalar.rational

/-- Two values that are not numbers, in front of and between the numbers one and two. -/
theorem create_with_nan_two : ∃ histogram full : Histogram (Extended ℚ),
    create [number 1, number 2] 2 none = .ok histogram ∧
      create [nan, number 1, nan, number 2] 2 none = .ok full ∧
      full.edges = histogram.edges ∧ full.total = histogram.total + 2 ∧
      full.counts ≠ histogram.counts := by
  have hfilter : [nan, number (1 : ℚ), nan, number 2].filter Number.isNumber =
      [number 1, number 2] := rfl
  have hvalid : Valid [number (1 : ℚ), number 2] 2 none := ⟨two_ne_zero, rfl, rfl, rfl⟩
  obtain ⟨histogram, hcreate⟩ : ∃ histogram, create [number (1 : ℚ), number 2] 2 none =
      .ok histogram :=
    ⟨_, create_eq_ok.mpr ⟨hvalid, by decide, rfl⟩⟩
  have hne : [nan, number (1 : ℚ), nan, number 2].filter Number.isNumber ≠ [] := by
    rw [hfilter]
    exact List.cons_ne_nil _ _
  obtain ⟨full, hfull, hedges, -, htotal, hcounts⟩ := create_with_nan hne (hfilter ▸ hcreate)
  refine ⟨histogram, full, hcreate, hfull, hedges, htotal, fun hsame ↦ ?_⟩
  have hnumber := hcounts.mp hsame nan List.mem_cons_self
  cases hnumber

end

end Histogram

end Moire
