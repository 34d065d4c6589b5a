import Moire.Proofs.SupercellSites

/-!
# The shortest image of a displacement

The sides of the supercell span a hexagonal lattice, and `sideForm` is the squared length in their
units. A point that is no closer to any of the six neighbours of the origin is `Reduced`, and no
lattice vector makes it shorter (`Reduced.le`). Two points of the supercell differ by less than a
side in each coordinate, and then one of nine steps reduces the difference (`exists_reduced`). The
thirteen translations contain those nine. `pair_hoppings_shortest` draws the conclusion for the
hoppings of a model: the displacement of a pair is the shortest of all its images, and it is not
zero, because no two atoms are congruent (`pairwise_not_congruent`).
-/

namespace Moire

open RealScalar

/-! ## Points next to the origin of a hexagonal lattice -/

/-- The squared length of a vector of the superlattice, in units of the sides. -/
def sideForm (x y : ℝ) : ℝ := x ^ 2 - x * y + y ^ 2

/-- The point is at least as close to the origin as to its six neighbours. -/
structure Reduced (x y : ℝ) : Prop where
  first : |2 * x - y| ≤ 1
  second : |2 * y - x| ≤ 1
  diagonal : |x + y| ≤ 1

/-- A linear function on a hexagon is bounded by its values at the corners. -/
theorem neg_le_mul_add_mul {a b s t bound : ℝ} (ha : |a| ≤ bound) (hb : |b| ≤ bound)
    (hab : |a - b| ≤ bound) (hs : |s| ≤ 1) (ht : |t| ≤ 1) (hst : |s + t| ≤ 1) :
    -bound ≤ a * s + b * t := by
  rw [abs_le] at ha hb hab hs ht hst
  -- In each of the sectors between two corners the function combines its values there.
  rcases le_total 0 s with hs' | hs' <;> rcases le_total 0 t with ht' | ht' <;>
    rcases le_total 0 (s + t) with hst' | hst' <;> nlinarith

/-- A lattice vector is at least as long as the distances it spans. -/
theorem abs_le_form (a b : ℤ) :
    |a| ≤ a ^ 2 - a * b + b ^ 2 ∧ |b| ≤ a ^ 2 - a * b + b ^ 2 ∧
      |a - b| ≤ a ^ 2 - a * b + b ^ 2 := by
  have habs : ∀ n : ℤ, |n| ≤ n ^ 2 := fun n ↦ Int.abs_eq_natAbs n ▸ Int.natAbs_le_self_sq n
  have ha := habs a
  have hb := habs b
  have hab := habs (a - b)
  have hform : 2 * (a ^ 2 - a * b + b ^ 2) = a ^ 2 + b ^ 2 + (a - b) ^ 2 := by ring
  refine ⟨?_, ?_, ?_⟩
  · have htriangle : |a| ≤ |b| + |a - b| := by rw [add_comm]; simpa using abs_add_le (a - b) b
    linarith
  · have htriangle : |b| ≤ |a| + |a - b| := by simpa using abs_sub a (a - b)
    linarith
  · have htriangle : |a - b| ≤ |a| + |b| := abs_sub a b
    linarith

/-- No lattice vector makes a reduced point shorter. -/
theorem Reduced.le {x y : ℝ} (h : Reduced x y) (a b : ℤ) :
    sideForm x y ≤ sideForm (x + a) (y + b) := by
  obtain ⟨ha, hb, hab⟩ := abs_le_form a b
  have hdiagonal : |(2 * x - y) + (2 * y - x)| ≤ 1 := by
    rw [show (2 * x - y) + (2 * y - x) = x + y by ring]
    exact h.diagonal
  have hbound : -((a : ℝ) ^ 2 - a * b + b ^ 2) ≤ a * (2 * x - y) + b * (2 * y - x) :=
    neg_le_mul_add_mul (by exact_mod_cast ha) (by exact_mod_cast hb) (by exact_mod_cast hab)
      h.first h.second hdiagonal
  calc sideForm x y
      ≤ sideForm x y + ((a : ℝ) ^ 2 - a * b + b ^ 2 + (a * (2 * x - y) + b * (2 * y - x))) := by
        linarith
    _ = sideForm (x + a) (y + b) := by
        unfold sideForm
        ring

/-- The reduced region by its six inequalities. -/
theorem reduced_iff {x y : ℝ} : Reduced x y ↔ (-1 ≤ 2 * x - y ∧ 2 * x - y ≤ 1) ∧
    (-1 ≤ 2 * y - x ∧ 2 * y - x ≤ 1) ∧ -1 ≤ x + y ∧ x + y ≤ 1 := by
  rw [← abs_le, ← abs_le, ← abs_le]
  exact ⟨fun h ↦ ⟨h.first, h.second, h.diagonal⟩, fun h ↦ ⟨h.1, h.2.1, h.2.2⟩⟩

/-- One of the corners of a cell is closest to a point in it. -/
theorem exists_reduced_unit {p q : ℝ} (hp : 0 ≤ p ∧ p ≤ 1) (hq : 0 ≤ q ∧ q ≤ 1) :
    ∃ a ∈ ({0, 1} : Set ℤ), ∃ b ∈ ({0, 1} : Set ℤ), Reduced (p - a) (q - b) := by
  -- The corner is the origin or the one across, unless a point is too close to one of the others.
  have hcorner : ∀ a ∈ ({0, 1} : Set ℤ), ∀ b ∈ ({0, 1} : Set ℤ),
      (-1 ≤ 2 * (p - a) - (q - b) ∧ 2 * (p - a) - (q - b) ≤ 1) →
      (-1 ≤ 2 * (q - b) - (p - a) ∧ 2 * (q - b) - (p - a) ≤ 1) →
      (-1 ≤ p - a + (q - b) ∧ p - a + (q - b) ≤ 1) →
      ∃ a ∈ ({0, 1} : Set ℤ), ∃ b ∈ ({0, 1} : Set ℤ), Reduced (p - a) (q - b) :=
    fun a ha b hb hfirst hsecond hdiagonal ↦
      ⟨a, ha, b, hb, reduced_iff.mpr ⟨hfirst, hsecond, hdiagonal⟩⟩
  by_cases hlow : p + q ≤ 1
  · by_cases hfirst : 2 * p - q ≤ 1
    · by_cases hsecond : 2 * q - p ≤ 1
      · apply hcorner 0 (by simp) 0 (by simp) <;> push_cast <;> constructor <;> linarith
      · apply hcorner 0 (by simp) 1 (by simp) <;> push_cast <;> constructor <;> linarith
    · apply hcorner 1 (by simp) 0 (by simp) <;> push_cast <;> constructor <;> linarith
  · by_cases hfirst : 0 ≤ 2 * p - q
    · by_cases hsecond : 0 ≤ 2 * q - p
      · apply hcorner 1 (by simp) 1 (by simp) <;> push_cast <;> constructor <;> linarith
      · apply hcorner 1 (by simp) 0 (by simp) <;> push_cast <;> constructor <;> linarith
    · apply hcorner 0 (by simp) 1 (by simp) <;> push_cast <;> constructor <;> linarith

/-- A difference of two points of the cell is brought next to the origin by one of nine steps. -/
theorem exists_reduced {u v : ℝ} (hu : -1 < u ∧ u < 1) (hv : -1 < v ∧ v < 1) :
    ∃ a b : ℤ, (-1 ≤ a ∧ a ≤ 1) ∧ (-1 ≤ b ∧ b ≤ 1) ∧ Reduced (u + a) (v + b) := by
  have hunit : ∀ {w : ℝ}, -1 < w ∧ w < 1 → ∃ c : ℤ, (c = 0 ∨ c = 1) ∧ 0 ≤ w + c ∧ w + c ≤ 1 := by
    intro w hw
    rcases le_total 0 w with hsign | hsign
    · exact ⟨0, Or.inl rfl, by push_cast; linarith, by push_cast; linarith⟩
    · exact ⟨1, Or.inr rfl, by push_cast; linarith, by push_cast; linarith⟩
  obtain ⟨c, hc, hp⟩ := hunit hu
  obtain ⟨d, hd, hq⟩ := hunit hv
  obtain ⟨a, ha, b, hb, hreduced⟩ := exists_reduced_unit hp hq
  simp only [Set.mem_insert_iff, Set.mem_singleton_iff] at ha hb
  refine ⟨c - a, d - b, by omega, by omega, ?_⟩
  push_cast
  rwa [← add_sub_assoc, ← add_sub_assoc]

namespace Supercell

variable {m0 r : ℕ} {a0 : ℝ}

/-- The squared length of a point, in coordinates along the sides. -/
theorem normSq_combine_sides (u v : ℝ) :
    (Vec2.combine (create m0 r a0).r₁ (create m0 r a0).r₃ u v).normSq =
      a0 ^ 2 * (bottomLabel m0 r).form * sideForm u v := by
  have hr₃ : (create m0 r a0).r₃ = Vec2.combine (create m0 r a0).a₁ (create m0 r a0).a₂
      (-((bottomLabel m0 r).i + (bottomLabel m0 r).j)) (bottomLabel m0 r).i := by
    rw [r₃, create_r₁, create_r₂]
    ext <;> simp only [Vec2.sub_x, Vec2.sub_y, Vec2.combine_x, Vec2.combine_y] <;> ring
  have hsqrt : √3 ^ 2 = 3 := Real.sq_sqrt (by norm_num)
  rw [hr₃, create_r₁, Vec2.combine_combine, create_a₁, create_a₂]
  simp only [Vec2.normSq, Vec2.combine_x, Vec2.combine_y, sideForm, LatticeIndex.form]
  push_cast
  ring_nf
  rw [hsqrt]
  ring

/-- The superlattice vectors that are tried, in coordinates along the sides. -/
def translationSteps : List (ℤ × ℤ) :=
  [(0, 0), (1, 0), (-1, 0), (1, 1), (-1, -1), (0, 1), (0, -1), (2, 1), (-2, -1), (1, 2), (-1, -2),
    (1, -1), (-1, 1)]

/-- The translations of a cell are its steps along the two sides. -/
theorem translations_eq (cell : Supercell ℝ) : cell.translations =
    translationSteps.map fun step ↦ Vec2.combine cell.r₁ cell.r₃ step.1 step.2 := by
  simp only [translations, translationSteps, List.map, List.cons.injEq, and_true]
  refine ⟨?_, ?_, ?_, ?_, ?_, ?_, ?_, ?_, ?_, ?_, ?_, ?_, ?_⟩ <;> ext <;>
    simp [Vec2.zero, r₃] <;> ring

end Supercell

namespace TightBinding

/-! ## The search for the shortest image -/

/-- The shorter of two displacements; the first of two that are as long. -/
noncomputable def shorter (best image : Vec3 ℝ) : Vec3 ℝ :=
  if image.norm < best.norm then image else best

/-- The shorter of two is no longer than the first. -/
theorem shorter_le_left (best image : Vec3 ℝ) : (shorter best image).norm ≤ best.norm := by
  unfold shorter
  split
  next h => exact h.le
  next => exact le_rfl

/-- The shorter of two is no longer than the second. -/
theorem shorter_le_right (best image : Vec3 ℝ) : (shorter best image).norm ≤ image.norm := by
  unfold shorter
  split
  next => exact le_rfl
  next h => exact not_lt.mp h

/-- A scan ends at the shortest of what it has seen. -/
theorem foldl_shorter (images : List (Vec3 ℝ)) (best : Vec3 ℝ) :
    images.foldl shorter best ∈ best :: images ∧
      ∀ image ∈ best :: images, (images.foldl shorter best).norm ≤ image.norm := by
  induction images generalizing best with
  | nil => simp
  | cons first images ih =>
      obtain ⟨hmem, hle⟩ := ih (shorter best first)
      rw [List.foldl_cons]
      refine ⟨?_, fun image himage ↦ ?_⟩
      · obtain heq | hrest := List.mem_cons.mp hmem
        · rw [heq, shorter]
          split <;> simp
        · simp [hrest]
      · have hscan := hle _ List.mem_cons_self
        obtain rfl | himage := List.mem_cons.mp himage
        · exact hscan.trans (shorter_le_left _ _)
        · obtain rfl | himage := List.mem_cons.mp himage
          · exact hscan.trans (shorter_le_right _ _)
          · exact hle image (List.mem_cons_of_mem _ himage)

/-- The scan of the images, which carries the length of the best one along. -/
theorem shortestImage_eq (first : Vec2 ℝ) (translations : List (Vec2 ℝ)) (raw : Vec3 ℝ) :
    shortestImage (first :: translations) raw =
      (translations.map fun t ↦ raw + t.lift 0).foldl shorter (raw + first.lift 0) := by
  have hscan : ∀ (images : List (Vec3 ℝ)) (best : Vec3 ℝ),
      images.foldl
        (fun (best, length) image ↦
          if Number.lt image.norm length then (image, image.norm) else (best, length))
        (best, best.norm) = (images.foldl shorter best, (images.foldl shorter best).norm) := by
    intro images
    induction images with
    | nil => exact fun best ↦ rfl
    | cons image images ih =>
        intro best
        rw [List.foldl_cons, List.foldl_cons, ← ih]
        congr 1
        unfold shorter
        by_cases h : image.norm < best.norm <;> simp [h]
  simp only [shortestImage, List.map_cons, zero_eq]
  rw [hscan]

/-- The shortest image is an image under one of the translations, and the shortest of those. -/
theorem shortestImage_spec {translations : List (Vec2 ℝ)} (hne : translations ≠ []) (raw : Vec3 ℝ) :
    (∃ t ∈ translations, shortestImage translations raw = raw + t.lift 0) ∧
      ∀ t ∈ translations, (shortestImage translations raw).norm ≤ (raw + t.lift 0).norm := by
  cases translations with
  | nil => exact absurd rfl hne
  | cons first rest =>
      rw [shortestImage_eq]
      obtain ⟨hmem, hle⟩ := foldl_shorter (rest.map fun t ↦ raw + t.lift 0) (raw + first.lift 0)
      have himages : (raw + first.lift 0) :: rest.map (fun t ↦ raw + t.lift 0) =
          (first :: rest).map fun t ↦ raw + t.lift 0 := rfl
      rw [himages] at hmem hle
      refine ⟨?_, fun t ht ↦ hle _ (List.mem_map_of_mem ht)⟩
      obtain ⟨t, ht, heq⟩ := List.mem_map.mp hmem
      exact ⟨t, ht, heq.symm⟩

/-! ## The place of a pair -/

/-- The entries of the rows before row `i`, where row `k` has an entry for each of the later
ones. -/
theorem length_rows {β : Type} {row : ℕ → List β} {n i : ℕ}
    (hrow : ∀ k < n, (row k).length = n - (k + 1)) (hi : i ≤ n) :
    ((List.range i).flatMap row).length = i * (2 * n - i - 1) / 2 := by
  induction i with
  | zero => simp
  | succ i ih =>
      obtain ⟨k, rfl⟩ := Nat.exists_eq_add_of_le hi
      rw [List.range_succ, List.flatMap_append, List.length_append, ih (by omega),
        List.flatMap_singleton, hrow i (by omega)]
      have hbefore : i * (2 * (i + 1 + k) - i - 1) = i * (i + 1 + 2 * k) := by congr 1; omega
      have hafter : (i + 1) * (2 * (i + 1 + k) - (i + 1) - 1) = i * (i + 1 + 2 * k) + 2 * k := by
        rw [show 2 * (i + 1 + k) - (i + 1) - 1 = i + 2 * k by omega]
        ring
      rw [hbefore, hafter, Nat.add_mul_div_left _ _ two_pos, Nat.add_sub_cancel_left]

/-- The entry of the pair `i < j` is found in row `i`. -/
theorem rows_getElem? {β : Type} {row : ℕ → List β} {n i j : ℕ}
    (hrow : ∀ k < n, (row k).length = n - (k + 1)) (hij : i < j) (hj : j < n) :
    ((List.range n).flatMap row)[pairIndex n i j]? = (row i)[j - i - 1]? := by
  have hi := hij.trans hj
  obtain ⟨k, hk⟩ := Nat.exists_eq_add_of_lt hi
  have hsplit : (List.range n).flatMap row =
      (List.range i).flatMap row ++ (row i ++ ((List.range k).map (i + 1 + ·)).flatMap row) := by
    rw [hk, show i + k + 1 = i + 1 + k by omega, List.range_add, List.range_succ, List.append_assoc,
      List.flatMap_append, List.flatMap_append, List.flatMap_singleton]
  rw [hsplit, pairIndex, ← length_rows hrow hi.le,
    List.getElem?_append_right (Nat.le_add_right _ _), Nat.add_sub_cancel_left,
    List.getElem?_append_left (by rw [hrow i hi]; omega)]

section

variable {α : Type} [Scalar α] (params : Params α) (cell : Supercell α) (atoms : Array (Vec3 α))

/-- The hoppings from an atom to the later ones. -/
def hoppingRow (i : ℕ) : List (Hopping α) :=
  ((atoms.extract (i + 1) atoms.size).map fun atom ↦
    hoppingAlong params (shortestImage cell.translations (atom - atoms.getD i ⟨0, 0, 0⟩))).toList

/-- An atom has a hopping to each one after it. -/
theorem length_hoppingRow (i : ℕ) :
    (hoppingRow params cell atoms i).length = atoms.size - (i + 1) := by
  simp [hoppingRow]

/-- The hoppings are listed row by row. -/
theorem toList_pairHoppings : (pairHoppings params cell atoms).toList =
    (List.range atoms.size).flatMap (hoppingRow params cell atoms) := by
  rw [pairHoppings, Array.toList_flatMap, Array.toList_range]
  rfl

/-- Each pair of atoms has its entry at its place. -/
theorem pairHoppings_getElem? {i j : ℕ} (hij : i < j) (hj : j < atoms.size) :
    (pairHoppings params cell atoms)[pairIndex atoms.size i j]? =
      some (hoppingAlong params (shortestImage cell.translations (atoms[j] - atoms[i]))) := by
  have hatom : (atoms.extract (i + 1) atoms.size)[j - i - 1]? = some atoms[j] := by
    rw [Array.getElem?_extract_of_lt (by omega)]
    simp only [show i + 1 + (j - i - 1) = j by omega]
  have horigin : atoms.getD i ⟨0, 0, 0⟩ = atoms[i] := by simp [hij.trans hj]
  rw [← Array.getElem?_toList, toList_pairHoppings,
    rows_getElem? (fun k _ ↦ length_hoppingRow params cell atoms k) hij hj, hoppingRow,
    Array.getElem?_toList, Array.getElem?_map, hatom, horigin]
  rfl

end

end TightBinding

/-! ## Differences of atoms -/

namespace Supercell

variable {m0 r : ℕ} {a0 : ℝ}

/-- The difference of two points of the supercell has coordinates between minus one and one. -/
theorem Commensurate.exists_difference {cell : Supercell ℝ} {b₁ b₂ : Vec2 ℝ} {label : LatticeIndex}
    (h : cell.Commensurate b₁ b₂ label) {p q : Vec2 ℝ} (hp : cell.holds p = true)
    (hq : cell.holds q = true) :
    ∃ u v : ℝ, (-1 < u ∧ u < 1) ∧ (-1 < v ∧ v < 1) ∧ q - p = Vec2.combine cell.r₁ cell.r₃ u v := by
  rw [holds_iff, Int.floor_eq_zero_iff, Int.floor_eq_zero_iff, Set.mem_Ico, Set.mem_Ico] at hp hq
  obtain ⟨⟨hpu, hpu'⟩, hpv, hpv'⟩ := hp
  obtain ⟨⟨hqu, hqu'⟩, hqv, hqv'⟩ := hq
  refine ⟨(cell.fractional q).1 - (cell.fractional p).1,
    (cell.fractional q).2 - (cell.fractional p).2, ⟨by linarith, by linarith⟩,
    ⟨by linarith, by linarith⟩, ?_⟩
  nth_rewrite 1 [← h.combine_fractional p, ← h.combine_fractional q]
  ext <;> simp only [Vec2.sub_x, Vec2.sub_y, Vec2.combine_x, Vec2.combine_y] <;> ring

/-- The length of an image of a displacement. -/
theorem norm_image {raw : Vec3 ℝ} {u v : ℝ}
    (hraw : raw.planar = Vec2.combine (create m0 r a0).r₁ (create m0 r a0).r₃ u v) (a b : ℝ) :
    (raw + (Vec2.combine (create m0 r a0).r₁ (create m0 r a0).r₃ a b).lift 0).norm =
      √(a0 ^ 2 * (bottomLabel m0 r).form * sideForm (u + a) (v + b) + raw.z ^ 2) := by
  have hx : raw.x = (Vec2.combine (create m0 r a0).r₁ (create m0 r a0).r₃ u v).x :=
    congrArg Vec2.x hraw
  have hy : raw.y = (Vec2.combine (create m0 r a0).r₁ (create m0 r a0).r₃ u v).y :=
    congrArg Vec2.y hraw
  rw [← normSq_combine_sides, Vec3.norm, sqrt_eq]
  simp only [Vec3.normSq, Vec2.normSq, Vec2.lift, Vec3.add_x, Vec3.add_y, Vec3.add_z, hx, hy,
    Vec2.combine_x, Vec2.combine_y]
  congr 1
  ring

/-- There is at least one translation. -/
theorem translations_ne_nil (cell : Supercell ℝ) : cell.translations ≠ [] := by
  rw [translations_eq]
  exact List.cons_ne_nil _ _

/-- A translation is a vector of the superlattice. -/
theorem congruent_shortestImage (cell : Supercell ℝ) (raw : Vec3 ℝ) :
    cell.Congruent raw (TightBinding.shortestImage cell.translations raw) := by
  obtain ⟨t, ht, hshortest⟩ := (TightBinding.shortestImage_spec cell.translations_ne_nil raw).1
  rw [translations_eq, List.mem_map] at ht
  obtain ⟨step, -, rfl⟩ := ht
  exact congruent_iff_sides.mpr ⟨step.1, step.2, hshortest⟩

/-- The thirteen translations contain one that leads to a shortest image. -/
theorem shortestImage_minimal {raw : Vec3 ℝ} {u v : ℝ} (hu : -1 < u ∧ u < 1) (hv : -1 < v ∧ v < 1)
    (hraw : raw.planar = Vec2.combine (create m0 r a0).r₁ (create m0 r a0).r₃ u v) :
    (create m0 r a0).Congruent raw
        (TightBinding.shortestImage (create m0 r a0).translations raw) ∧
      ∀ image, (create m0 r a0).Congruent raw image →
        (TightBinding.shortestImage (create m0 r a0).translations raw).norm ≤ image.norm := by
  refine ⟨congruent_shortestImage _ raw, fun image himage ↦ ?_⟩
  obtain ⟨c, d, rfl⟩ := congruent_iff_sides.mp himage
  obtain ⟨a, b, ha, hb, hreduced⟩ := exists_reduced hu hv
  have htried : (a, b) ∈ translationSteps := by
    have hcases : (a = -1 ∨ a = 0 ∨ a = 1) ∧ (b = -1 ∨ b = 0 ∨ b = 1) := by omega
    obtain ⟨rfl | rfl | rfl, rfl | rfl | rfl⟩ := hcases <;> decide
  have hmem : Vec2.combine (create m0 r a0).r₁ (create m0 r a0).r₃ a b ∈
      (create m0 r a0).translations := by
    rw [translations_eq]
    exact List.mem_map_of_mem htried
  refine ((TightBinding.shortestImage_spec (translations_ne_nil _) raw).2 _ hmem).trans ?_
  rw [norm_image hraw, norm_image hraw]
  have hform : 0 ≤ ((bottomLabel m0 r).form : ℝ) := by
    exact_mod_cast (bottomLabel m0 r).form_nonneg
  have hleast := hreduced.le (c - a) (d - b)
  push_cast at hleast
  rw [show u + a + (c - a) = u + c by ring, show v + b + (d - b) = v + d by ring] at hleast
  gcongr

end Supercell

/-! ## No two atoms are congruent -/

namespace Sublattice

/-- Sublattices at the same height belong to the same layer, and their sites are not a lattice
vector apart. -/
theorem layer_eq {s t : Sublattice} {distance : ℝ} (hne : s ≠ t) (hdistance : distance ≠ 0)
    (hheight : s.height distance = t.height distance) (cell : Supercell ℝ) :
    s.first cell = t.first cell ∧ s.second cell = t.second cell ∧
      ∀ n : ℤ, t.offset - s.offset ≠ n := by
  have hthird : ∀ n : ℤ, (1 / 3 : ℝ) ≠ n := by
    intro n hn
    have hthree : (1 : ℤ) = 3 * n := by
      have hreal : (1 : ℝ) = 3 * n := by linarith
      exact_mod_cast hreal
    omega
  have hthird' : ∀ n : ℤ, (-(1 / 3) : ℝ) ≠ n := by
    intro n hn
    refine hthird (-n) ?_
    push_cast
    linarith
  cases s <;> cases t <;> simp_all [height, offset, first, second]

/-- Sites of different sublattices are never congruent. -/
theorem not_congruent_of_ne {cell : Supercell ℝ} {s t : Sublattice} {label : LatticeIndex}
    {distance : ℝ} (h : cell.Commensurate (s.first cell) (s.second cell) label) (hne : s ≠ t)
    (hdistance : distance ≠ 0) (index other : LatticeIndex) :
    ¬ cell.Congruent (s.site cell distance index) (t.site cell distance other) := by
  intro hcongruent
  obtain ⟨a, b, hsite⟩ := Supercell.congruent_iff_sides.mp hcongruent
  rw [← site_shift h] at hsite
  have hheight : t.height distance = s.height distance := congrArg Vec3.z hsite
  obtain ⟨hfirst, hsecond, hoffset⟩ := layer_eq hne hdistance hheight.symm cell
  have hplanar : Vec2.combine (t.first cell) (t.second cell) (other.i + t.offset)
      (other.j + t.offset) = Vec2.combine (s.first cell) (s.second cell)
        ((index.shift label a b).i + s.offset) ((index.shift label a b).j + s.offset) :=
    congrArg Vec3.planar hsite
  rw [← hfirst, ← hsecond] at hplanar
  obtain ⟨hi, -⟩ := Vec2.combine_injective h.independent hplanar
  refine hoffset ((index.shift label a b).i - other.i) ?_
  push_cast
  linarith

end Sublattice

namespace TightBinding

variable {m0 r : ℕ} {a0 distance : ℝ} {lattice : Lattice.Closure} {atoms : Array (Vec3 ℝ)}

/-- Atoms at different places are not congruent. -/
theorem pairwise_not_congruent (hr : 1 ≤ r) (ha0 : a0 ≠ 0) (hdistance : distance ≠ 0)
    (hnodup : lattice.indices.toList.Nodup)
    (hatoms : placeAtoms (Supercell.create m0 r a0) lattice distance = .ok atoms) :
    atoms.toList.Pairwise fun p q ↦ ¬ (Supercell.create m0 r a0).Congruent p q := by
  rw [(perm_of_placeAtoms hatoms).pairwise_iff fun hpq ↦ mt Supercell.Congruent.symm hpq,
    List.pairwise_flatMap]
  refine ⟨fun s _ ↦ ?_, ?_⟩
  · have h : (Supercell.create m0 r a0).Commensurate _ _ (s.label m0 r) := s.commensurate hr ha0
    refine (Sublattice.atoms_nodup h hnodup).imp_of_mem fun {p q} hp hq hne hcongruent ↦ hne ?_
    obtain ⟨index, -, rfl⟩ := List.mem_map.mp (List.mem_of_mem_filter hp)
    exact Sublattice.eq_of_congruent h hp hq (Supercell.Congruent.refl _ _) hcongruent
  · have hall : Sublattice.all.Nodup := by decide
    refine hall.imp fun {s t} hne p hp q hq ↦ ?_
    obtain ⟨index, -, rfl⟩ := List.mem_map.mp (List.mem_of_mem_filter hp)
    obtain ⟨other, -, rfl⟩ := List.mem_map.mp (List.mem_of_mem_filter hq)
    exact Sublattice.not_congruent_of_ne (s.commensurate hr ha0) hne hdistance index other

/-- Every atom lies in the supercell. -/
theorem holds_of_mem {p : Vec3 ℝ} (hp : p ∈ atoms)
    (hatoms : placeAtoms (Supercell.create m0 r a0) lattice distance = .ok atoms) :
    (Supercell.create m0 r a0).holds p.planar = true := by
  have hp' := (perm_of_placeAtoms hatoms).mem_iff.mp (Array.mem_toList_iff.mpr hp)
  obtain ⟨s, -, hp'⟩ := List.mem_flatMap.mp hp'
  exact (List.mem_filter.mp hp').2

/-- The amplitude of a hopping depends on the length and the height of its displacement. -/
theorem amplitude_congr (params : Params ℝ) {d e : Vec3 ℝ} (hnorm : e.norm = d.norm)
    (hz : e.z = d.z) : (hoppingAlong params e).amplitude = (hoppingAlong params d).amplitude := by
  unfold hoppingAlong
  rw [hnorm, hz]

/-- Only the zero vector has no length. -/
theorem norm_pos {d : Vec3 ℝ} (hd : d ≠ ⟨0, 0, 0⟩) : 0 < d.norm := by
  rw [Vec3.norm, sqrt_eq, Real.sqrt_pos, Vec3.normSq]
  by_contra hnorm
  refine hd ?_
  ext <;> nlinarith [mul_self_nonneg d.x, mul_self_nonneg d.y, mul_self_nonneg d.z]

/-- The displacement of a pair of atoms is the shortest among all of its images under the
superlattice, it is not zero, and the strength of the hopping is the same along every shortest
image. -/
theorem pair_hoppings_shortest (params : Params ℝ) (hr : 1 ≤ params.r)
    (ha0 : params.latticeConstant ≠ 0) (hdistance : params.interlayerDistance ≠ 0)
    {target : LatticeIndex} {rounds : ℕ}
    (hlattice : Lattice.expandUntil target rounds = .ok lattice)
    (hatoms : placeAtoms (Supercell.create params.m0 params.r params.latticeConstant) lattice
      params.interlayerDistance = .ok atoms)
    {i j : ℕ} (hij : i < j) (hj : j < atoms.size) :
    let cell := Supercell.create params.m0 params.r params.latticeConstant
    let raw := atoms[j] - atoms[i]
    let d := shortestImage cell.translations raw
    (pairHoppings params cell atoms)[pairIndex atoms.size i j]? = some (hoppingAlong params d) ∧
    cell.Congruent raw d ∧
    0 < d.norm ∧
    ∀ image, cell.Congruent raw image → d.norm ≤ image.norm ∧
      (image.norm = d.norm →
        (hoppingAlong params image).amplitude = (hoppingAlong params d).amplitude) := by
  intro cell raw d
  have hi := hij.trans hj
  have hcell : cell.Commensurate _ _ _ := Supercell.bottom_commensurate hr ha0
  obtain ⟨u, v, hu, hv, hraw⟩ := hcell.exists_difference
    (holds_of_mem (atoms.getElem_mem hi) hatoms) (holds_of_mem (atoms.getElem_mem hj) hatoms)
  obtain ⟨hcongruent, hshortest⟩ :=
    Supercell.shortestImage_minimal hu hv (show raw.planar = _ from hraw)
  have hheight : ∀ image, cell.Congruent raw image → image.z = raw.z := by
    rintro image ⟨a, b, rfl⟩
    simp [Vec2.lift]
  refine ⟨pairHoppings_getElem? params cell atoms hij hj, hcongruent, norm_pos ?_,
    fun image himage ↦ ⟨hshortest image himage, fun hnorm ↦ amplitude_congr params hnorm ?_⟩⟩
  · intro hzero
    have hapart := List.pairwise_iff_getElem.mp (pairwise_not_congruent hr ha0 hdistance
      (Lattice.expandUntil_nodup hlattice) hatoms) i j (by simpa using hi) (by simpa using hj) hij
    exact hapart (Supercell.Congruent.of_sub (hzero ▸ hcongruent))
  · rw [hheight image himage, hheight d hcongruent]

/-- The first and the last atom of the smallest supercell of the second kind. -/
theorem pair_hoppings_shortest_seven :
    ∃ target lattice atoms, Lattice.expandUntil target 5 = .ok lattice ∧
      placeAtoms (Supercell.create 1 3 (1 : ℝ)) lattice 2 = .ok atoms ∧
      ∃ hsize : 27 < atoms.size,
        (0 : ℝ) < (shortestImage (Supercell.create 1 3 (1 : ℝ)).translations
          (atoms[27] - atoms[0])).norm := by
  obtain ⟨target, lattice, atoms, -, hlattice, hatoms, hall⟩ :=
    exists_placement 2 (by decide : 1 ≤ 3) (one_ne_zero : (1 : ℝ) ≠ 0)
      (by decide : 2 * 1 + 3 ≤ 5) (by decide)
  have hcells : ((Supercell.create 1 3 (1 : ℝ)).cells : ℤ) = 7 := Supercell.cells_eq (by decide)
  have hsize : 27 < atoms.size := by
    have hcount := size_eq (perm_of_placeAtoms hatoms) hall
    omega
  exact ⟨target, lattice, atoms, hlattice, hatoms, hsize,
    (pair_hoppings_shortest ⟨1, 3, -2700, 480, 1, 2, 1, 5⟩ (by decide) one_ne_zero two_ne_zero
      hlattice hatoms (by decide : 0 < 27) hsize).2.2.1⟩

end TightBinding

end Moire
