import Mathlib
import Moire.Bands.Structure
import Moire.Proofs.ExactField
import Moire.Proofs.RealScalar

/-!
# Sorting

The library sorts by insertion and compares with the computed order. The result is a permutation,
`sortBy_perm`, in which entries that cannot be told from each other keep their order,
`filter_sortBy`, and it is in ascending order along every relation that the comparison decides,
`Decides.sortBy`. Where the computed order is linear, `Number.Ordered`, it is such a relation
(`sortBy_sorted`), and the keys are fixed by the permutation and the order, `map_sortBy`. The reals
and all ordered fields are of this kind. Any other routine that sorts values is assumed to agree
with this wherever all of them are numbers, `Sorter.Lawful`.
-/

namespace Moire

/-- The computed comparison is that of a linear order. -/
class Number.Ordered (α : Type) [Number α] [LinearOrder α] : Prop where
  lt_iff : ∀ {x y : α}, Number.lt x y = true ↔ x < y

instance : Number.Ordered ℝ where
  lt_iff := decide_eq_true_iff

instance {K : Type} [ExactField K] : Number.Ordered K where
  lt_iff := decide_eq_true_iff

namespace Number

variable {α β : Type} [Number α] (key : β → α)

section

variable {γ : Type} (f : γ → β)

/-- An insertion among images is the image of an insertion by the keys of the images. -/
theorem insertDescending_map (x : γ) (entries : List γ) :
    insertDescending key (f x) (entries.map f) =
      (insertDescending (fun y ↦ key (f y)) x entries).map f := by
  induction entries with
  | nil => rfl
  | cons y rest ih =>
      rw [List.map_cons, insertDescending, insertDescending, ih]
      split <;> rfl

/-- Images are sorted as what they are images of. -/
theorem sortBy_comp (entries : List γ) :
    sortBy key (entries.map f) = (sortBy (fun y ↦ key (f y)) entries).map f := by
  have hfold : ∀ sorted : List γ,
      (entries.map f).foldl (fun sorted x ↦ insertDescending key x sorted) (sorted.map f) =
        (entries.foldl (fun sorted x ↦ insertDescending (fun y ↦ key (f y)) x sorted) sorted).map
          f := by
    induction entries with
    | nil => exact fun _ ↦ rfl
    | cons x rest ih =>
      intro sorted
      rw [List.map_cons, List.foldl_cons, List.foldl_cons, insertDescending_map, ih]
  rw [sortBy, sortBy, List.map_reverse]
  exact congrArg List.reverse (hfold [])

end

/-- Sorting does not see what the key does not see. -/
theorem sortBy_map {key : β → α} {f : β → β} (hkey : ∀ x, key (f x) = key x) (entries : List β) :
    sortBy key (entries.map f) = (sortBy key entries).map f := by
  rw [sortBy_comp, funext hkey]

/-- An insertion adds its value and keeps the others. -/
theorem insertDescending_perm (x : β) (entries : List β) :
    (insertDescending key x entries).Perm (x :: entries) := by
  induction entries with
  | nil => rfl
  | cons y rest ih =>
      rw [insertDescending]
      split
      · exact (ih.cons y).trans (List.Perm.swap x y rest)
      · rfl

/-- Insertions one after the other add their values and keep the others. -/
theorem foldl_insertDescending_perm (entries sorted : List β) :
    (entries.foldl (fun sorted x ↦ insertDescending key x sorted) sorted).Perm
      (entries ++ sorted) := by
  induction entries generalizing sorted with
  | nil => exact List.Perm.refl _
  | cons x rest ih =>
      exact (ih _).trans
        (((insertDescending_perm key x sorted).append_left rest).trans List.perm_middle)

/-- Sorting keeps the values. -/
theorem sortBy_perm (entries : List β) : (sortBy key entries).Perm entries := by
  have hperm := foldl_insertDescending_perm key entries []
  rw [List.append_nil] at hperm
  exact (List.reverse_perm _).trans hperm

/-- An entry is put in front of those that it cannot be told from. -/
theorem filter_insertDescending {p : β → Bool} {x : β} {entries : List β}
    (h : ∀ y ∈ entries, p x = true → p y = true → lt (key x) (key y) = false) :
    (insertDescending key x entries).filter p = (x :: entries).filter p := by
  induction entries with
  | nil => rfl
  | cons y rest ih =>
      obtain ⟨hy, hrest⟩ := List.forall_mem_cons.mp h
      rw [insertDescending]
      split
      next hlt =>
        rw [List.filter_cons, ih hrest]
        by_cases hx : p x = true
        · have hpy : ¬ p y = true := fun hpy ↦ absurd hlt (by simp [hy hx hpy])
          simp [hx, hpy]
        · simp [hx, List.filter_cons]
      next => rfl

/-- Entries that cannot be told from each other keep their order. -/
theorem filter_sortBy {p : β → Bool} {entries : List β}
    (h : ∀ x ∈ entries, ∀ y ∈ entries, p x = true → p y = true → lt (key x) (key y) = false) :
    (sortBy key entries).filter p = entries.filter p := by
  have hfold : ∀ sorted : List β,
      (∀ x ∈ entries, ∀ y ∈ sorted, p x = true → p y = true → lt (key x) (key y) = false) →
      (entries.foldl (fun sorted x ↦ insertDescending key x sorted) sorted).filter p =
        (entries.filter p).reverse ++ sorted.filter p := by
    induction entries with
    | nil => exact fun _ _ ↦ rfl
    | cons x rest ih =>
        intro sorted hsorted
        obtain ⟨hx, hrest⟩ := List.forall_mem_cons.mp hsorted
        have htell : ∀ z ∈ rest, ∀ y ∈ insertDescending key x sorted, p z = true → p y = true →
            lt (key z) (key y) = false := by
          intro z hz y hy
          rcases List.mem_cons.mp ((insertDescending_perm key x sorted).mem_iff.mp hy) with rfl | hy
          · exact h z (List.mem_cons_of_mem _ hz) y List.mem_cons_self
          · exact hrest z hz y hy
        rw [List.foldl_cons, ih (fun z hz y hy ↦ h z (List.mem_cons_of_mem _ hz) y
          (List.mem_cons_of_mem _ hy)) _ htell, filter_insertDescending key hx, List.filter_cons,
          List.filter_cons]
        split
        · rw [List.reverse_cons, List.append_assoc, List.singleton_append]
        · rfl
  rw [sortBy, List.filter_reverse, hfold [] fun _ _ _ hy ↦ absurd hy List.not_mem_nil,
    List.filter_nil, List.append_nil, List.reverse_reverse]

/-! ## Order -/

/-- Among the entries with a property, the comparison of keys decides which of two is to stand in
front of the other in a descending list. -/
structure Decides (P : β → Prop) (r : β → β → Prop) : Prop where
  trans {x y z : β} : P x → P y → P z → r x y → r y z → r x z
  of_lt {x y : β} : P x → P y → lt (key x) (key y) = true → r y x
  of_not_lt {x y : β} : P x → P y → ¬ lt (key x) (key y) = true → r x y

namespace Decides

variable {key} {P : β → Prop} {r : β → β → Prop} (h : Decides key P r)

include h

/-- A list in descending order takes a new entry at its place. -/
theorem insertDescending {x : β} (hx : P x) {entries : List β} (hentries : ∀ y ∈ entries, P y)
    (hsorted : entries.Pairwise r) : (insertDescending key x entries).Pairwise r := by
  induction entries with
  | nil => exact List.pairwise_singleton _ x
  | cons y rest ih =>
      obtain ⟨hy, hrest⟩ := List.pairwise_cons.mp hsorted
      obtain ⟨hPy, hPrest⟩ := List.forall_mem_cons.mp hentries
      rw [Number.insertDescending]
      split
      next hlt =>
        refine List.pairwise_cons.mpr ⟨fun z hz ↦ ?_, ih hPrest hrest⟩
        rcases List.mem_cons.mp ((insertDescending_perm key x rest).mem_iff.mp hz) with rfl | hz
        · exact h.of_lt hx hPy hlt
        · exact hy z hz
      next hlt =>
        have hfirst : r x y := h.of_not_lt hx hPy hlt
        refine List.pairwise_cons.mpr ⟨fun z hz ↦ ?_, hsorted⟩
        rcases List.mem_cons.mp hz with rfl | hz
        · exact hfirst
        · exact h.trans hx hPy (hPrest z hz) hfirst (hy z hz)

/-- A list that is sorted by its keys is in ascending order. -/
theorem sortBy {entries : List β} (hentries : ∀ y ∈ entries, P y) :
    (sortBy key entries).Pairwise fun a b ↦ r b a := by
  have hfold : ∀ sorted : List β, (∀ y ∈ sorted, P y) → sorted.Pairwise r →
      (entries.foldl (fun sorted x ↦ Number.insertDescending key x sorted) sorted).Pairwise r := by
    induction entries with
    | nil => exact fun _ _ hsorted ↦ hsorted
    | cons x rest ih =>
        intro sorted hP hsorted
        obtain ⟨hx, hrest⟩ := List.forall_mem_cons.mp hentries
        refine ih hrest _ (fun y hy ↦ ?_) (h.insertDescending hx hP hsorted)
        rcases List.mem_cons.mp ((insertDescending_perm key x sorted).mem_iff.mp hy) with rfl | hy
        · exact hx
        · exact hP y hy
  exact List.pairwise_reverse.mpr (hfold [] (fun _ hy ↦ absurd hy List.not_mem_nil) .nil)

end Decides

variable [LinearOrder α] [Ordered α]

/-- Where the computed order is linear, the comparison decides it for all entries. -/
theorem decides_of_ordered : Decides key (fun _ ↦ True) fun a b ↦ key b ≤ key a where
  trans _ _ _ hxy hyz := hyz.trans hxy
  of_lt _ _ hlt := (Ordered.lt_iff.mp hlt).le
  of_not_lt _ _ hlt := not_lt.mp fun h ↦ hlt (Ordered.lt_iff.mpr h)

/-- Sorted values go up in their keys. -/
theorem sortBy_sorted (entries : List β) :
    (sortBy key entries).Pairwise fun a b ↦ key a ≤ key b :=
  (decides_of_ordered key).sortBy fun _ _ ↦ trivial

/-- A list in ascending order stays as it is, also where keys are equal. -/
theorem sortBy_of_sorted {entries : List β} (h : entries.Pairwise fun a b ↦ key a ≤ key b) :
    sortBy key entries = entries := by
  have hfold : ∀ sorted : List β, (∀ x ∈ entries, ∀ y ∈ sorted, key y ≤ key x) →
      entries.foldl (fun sorted x ↦ insertDescending key x sorted) sorted =
        entries.reverse ++ sorted := by
    induction entries with
    | nil => exact fun _ _ ↦ rfl
    | cons x rest ih =>
        intro sorted hsorted
        obtain ⟨hx, hrest⟩ := List.pairwise_cons.mp h
        -- The entry is not below any of those before, so it is put in front of them.
        have hinsert : insertDescending key x sorted = x :: sorted := by
          cases sorted with
          | nil => rfl
          | cons y sorted =>
              rw [insertDescending, if_neg]
              exact fun hlt ↦ absurd (Ordered.lt_iff.mp hlt)
                (not_lt.mpr (hsorted x List.mem_cons_self y List.mem_cons_self))
        rw [List.foldl_cons, hinsert, ih hrest, List.reverse_cons, List.append_assoc,
          List.singleton_append]
        intro z hz y hy
        rcases List.mem_cons.mp hy with rfl | hy
        · exact hx z hz
        · exact hsorted z (List.mem_cons_of_mem x hz) y hy
  rw [sortBy, hfold [] (fun _ _ _ hy ↦ absurd hy List.not_mem_nil), List.append_nil,
    List.reverse_reverse]

/-- The keys of a sorted list are the keys in ascending order. -/
theorem map_sortBy {entries : List β} {keys : List α} (hperm : (entries.map key).Perm keys)
    (hsorted : keys.Pairwise (· ≤ ·)) : (sortBy key entries).map key = keys :=
  List.Perm.eq_of_pairwise (fun _ _ _ _ hab hba ↦ le_antisymm hab hba)
    (List.pairwise_map.mpr (sortBy_sorted key entries)) hsorted
    (((sortBy_perm key entries).map key).trans hperm)

end Number

/-! ## Sorters -/

namespace Sorter

variable {α : Type} [Scalar α]

/-- What is assumed of a sorter. It returns the values in some order. If all of them are numbers it
returns them in ascending order, equal ones in the order they came in; if some are not, it may
stop. -/
structure Lawful (sort : Sorter α) : Prop where
  perm {values sorted : List α} (h : sort values = some sorted) : sorted.Perm values
  sorts {values : List α} (h : ∀ x ∈ values, Number.isNumber x = true) :
    sort values = some (Number.sortBy id values)

/-- Sorting by insertion is lawful. -/
theorem lawful_insertion : (insertion : Sorter α).Lawful where
  perm h := by
    cases h
    exact Number.sortBy_perm id _
  sorts _ := rfl

/-- A sorter that stops on every list with a value that is not a number. -/
def strict : Sorter α := fun values ↦
  if values.all Number.isNumber then some (Number.sortBy id values) else none

/-- Stopping on what is not a number is lawful. -/
theorem lawful_strict : (strict : Sorter α).Lawful where
  perm h := by
    obtain ⟨-, h⟩ := Option.ite_none_right_eq_some.mp h
    cases h
    exact Number.sortBy_perm id _
  sorts h := if_pos (List.all_eq_true.mpr h)

/-- A lawful sorter stops only on values of which some are not numbers. -/
theorem Lawful.exists_of_none {sort : Sorter α} (hsort : sort.Lawful) {values : List α}
    (h : sort values = none) : ∃ x ∈ values, Number.isNumber x = false := by
  by_contra hall
  push Not at hall
  rw [hsort.sorts fun x hx ↦ Bool.eq_true_of_not_eq_false (hall x hx)] at h
  cases h

/-- Over an ordered field a lawful sorter never stops. -/
theorem Lawful.sort_eq {K : Type} [ExactScalar K] {sort : Sorter K} (hsort : sort.Lawful)
    (values : List K) : sort values = some (Number.sortBy id values) :=
  hsort.sorts fun x _ ↦ ExactField.isNumber_eq x

end Sorter

end Moire
