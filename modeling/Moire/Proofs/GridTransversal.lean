import Mathlib
import Moire.Proofs.BandSelection
import Moire.Proofs.FundamentalCell
import Moire.Proofs.PlaquetteSum

/-!
# The grid is a transversal of the divided zone

The points with integer coordinates along the `n`-th parts of the vectors of a zone fall into `n²`
classes modulo the zone, one for each pair of residues, `zoneCongruent_refinedPoint_iff`. The grid
holds one point of each class, and the residues of a class give its place in the grid,
`zoneCongruent_get_iff`. A step between such points therefore permutes the places of the grid,
`exists_perm_step`, of which the steps to the three other corners of a plaquette are cases.
-/

namespace Moire

open RealScalar

/-! ## Points of the divided zone -/

/-- Two points differ by a step of the zone. -/
def ZoneCongruent (v₁ v₂ p q : KPoint ℝ) : Prop :=
  ∃ s t : ℤ, p = q + (v₁ * (s : ℝ) + v₂ * (t : ℝ))

section

variable {v₁ v₂ : KPoint ℝ} {n : ℕ}

/-- A point of the refined lattice has the coordinates divided by the number of steps. -/
theorem refinedPoint_eq_combine (v₁ v₂ : KPoint ℝ) (n : ℕ) (a b : ℤ) :
    refinedPoint v₁ v₂ n a b = Vec2.combine v₁ v₂ (a / n) (b / n) := by
  ext <;> simp only [refinedPoint, Vec2.combine_x, Vec2.combine_y, Vec2.add_x, Vec2.add_y,
    Vec2.mul_x, Vec2.mul_y, Vec2.div_x, Vec2.div_y] <;> ring

variable (hn : n ≠ 0)

include hn

/-- A step of the zone is `n` of its parts. -/
theorem refinedPoint_add_zone (a b s t : ℤ) :
    refinedPoint v₁ v₂ n a b + (v₁ * (s : ℝ) + v₂ * (t : ℝ)) =
      refinedPoint v₁ v₂ n (a + n * s) (b + n * t) := by
  have hn' : (n : ℝ) ≠ 0 := Nat.cast_ne_zero.mpr hn
  ext <;> simp only [refinedPoint, Vec2.add_x, Vec2.add_y, Vec2.mul_x, Vec2.mul_y, Vec2.div_x,
    Vec2.div_y] <;> push_cast <;> field_simp <;> ring

variable (hcross : v₁.cross v₂ ≠ 0)

include hcross

/-- The points of the refined lattice are told apart by their coordinates. -/
theorem refinedPoint_injective {a b c d : ℤ}
    (h : refinedPoint v₁ v₂ n a b = refinedPoint v₁ v₂ n c d) : a = c ∧ b = d := by
  have hn' : (n : ℝ) ≠ 0 := Nat.cast_ne_zero.mpr hn
  rw [refinedPoint_eq_combine, refinedPoint_eq_combine] at h
  obtain ⟨ha, hb⟩ := Vec2.combine_injective hcross h
  rw [div_left_inj' hn', Int.cast_inj] at ha hb
  exact ⟨ha, hb⟩

/-- Points are congruent when their coordinates are. -/
theorem zoneCongruent_refinedPoint_iff {a b c d : ℤ} :
    ZoneCongruent v₁ v₂ (refinedPoint v₁ v₂ n a b) (refinedPoint v₁ v₂ n c d) ↔
      a ≡ c [ZMOD n] ∧ b ≡ d [ZMOD n] := by
  constructor
  · rintro ⟨s, t, h⟩
    rw [refinedPoint_add_zone hn] at h
    obtain ⟨ha, hb⟩ := refinedPoint_injective hn hcross h
    exact ⟨(Int.modEq_iff_add_fac.mpr ⟨s, ha⟩).symm, (Int.modEq_iff_add_fac.mpr ⟨t, hb⟩).symm⟩
  · rintro ⟨ha, hb⟩
    obtain ⟨s, rfl⟩ := Int.modEq_iff_add_fac.mp ha.symm
    obtain ⟨t, rfl⟩ := Int.modEq_iff_add_fac.mp hb.symm
    exact ⟨s, t, (refinedPoint_add_zone hn c d s t).symm⟩

end

/-! ## Places in the grid -/

/-- The place in the grid of the point that has given coordinates up to steps of the zone. -/
def gridPlace (n : ℕ) (a b : ℤ) : ℕ := (a % n).toNat * n + (b % n).toNat

section

variable {n : ℕ} (hn : 0 < n)

include hn

/-- A remainder is less than the number of steps. -/
theorem toNat_emod_lt (a : ℤ) : (a % n).toNat < n := by
  have hlow := Int.emod_nonneg a (Nat.cast_ne_zero.mpr hn.ne')
  have hhigh := Int.emod_lt_of_pos a (Nat.cast_pos.mpr hn)
  omega

/-- Coordinates have the same remainder just if they differ by steps of the zone. -/
theorem toNat_emod_eq_iff {a c : ℤ} : (a % n).toNat = (c % n).toNat ↔ a ≡ c [ZMOD n] := by
  have ha := Int.emod_nonneg a (Nat.cast_ne_zero.mpr hn.ne')
  have hc := Int.emod_nonneg c (Nat.cast_ne_zero.mpr hn.ne')
  unfold Int.ModEq
  omega

/-- Every place is in the grid. -/
theorem gridPlace_lt (a b : ℤ) : gridPlace n a b < n * n :=
  calc gridPlace n a b < (a % n).toNat * n + n := Nat.add_lt_add_left (toNat_emod_lt hn b) _
    _ = ((a % n).toNat + 1) * n := (Nat.succ_mul _ _).symm
    _ ≤ n * n := Nat.mul_le_mul_right n (toNat_emod_lt hn a)

/-- The place tells the first coordinate. -/
theorem gridPlace_div (a b : ℤ) : gridPlace n a b / n = (a % n).toNat := by
  rw [gridPlace, mul_comm, Nat.mul_add_div hn, Nat.div_eq_of_lt (toNat_emod_lt hn b), add_zero]

/-- The place tells the second coordinate. -/
theorem gridPlace_mod (a b : ℤ) : gridPlace n a b % n = (b % n).toNat := by
  rw [gridPlace, add_comm, Nat.add_mul_mod_self_right, Nat.mod_eq_of_lt (toNat_emod_lt hn b)]

/-- Two points have the same place when their coordinates are congruent. -/
theorem gridPlace_eq_iff {a b c d : ℤ} :
    gridPlace n a b = gridPlace n c d ↔ a ≡ c [ZMOD n] ∧ b ≡ d [ZMOD n] := by
  rw [← toNat_emod_eq_iff hn, ← toNat_emod_eq_iff hn]
  constructor
  · intro h
    rw [← gridPlace_div hn a b, ← gridPlace_mod hn a b, h, gridPlace_div hn, gridPlace_mod hn]
    exact ⟨rfl, rfl⟩
  · rintro ⟨ha, hb⟩
    rw [gridPlace, ha, hb, gridPlace]

end

/-- A place is that of its own row and column. -/
theorem gridPlace_div_mod {n p : ℕ} (hp : p < n * n) :
    gridPlace n (p / n : ℕ) (p % n : ℕ) = p := by
  have hn : 0 < n := Nat.pos_of_mul_pos_left (Nat.zero_lt_of_lt hp)
  have hrow : ((p / n : ℕ) % n : ℤ).toNat = p / n := by
    rw [← Int.natCast_mod, Int.toNat_natCast, Nat.mod_eq_of_lt (Nat.div_lt_of_lt_mul hp)]
  have hcolumn : ((p % n : ℕ) % n : ℤ).toNat = p % n := by
    rw [← Int.natCast_mod, Int.toNat_natCast, Nat.mod_mod]
  rw [gridPlace, hrow, hcolumn, mul_comm, Nat.div_add_mod]

/-! ## The grid -/

/-- The pairs of a row and a column, row by row. -/
theorem range_product (n : ℕ) :
    List.range n ×ˢ List.range n = (List.range (n * n)).map fun p ↦ (p / n, p % n) := by
  apply List.ext_getElem?
  intro p
  by_cases hp : p < n * n
  · have hn : 0 < n := Nat.pos_of_mul_pos_left (Nat.zero_lt_of_lt hp)
    have hplace : p = p / n * n + p % n := (Nat.div_add_mod' p n).symm
    have hentry : ((List.range n).flatMap fun i ↦ (List.range n).map (Prod.mk i))[p]? =
        (List.range n)[p / n]?.bind fun i ↦ ((List.range n).map (Prod.mk i))[p % n]? := by
      nth_rewrite 1 [hplace]
      exact getElem?_flatMap (Nat.mod_lt p hn) (fun _ _ ↦ by simp) (p / n)
    refine hentry.trans ?_
    simp [Nat.div_lt_of_lt_mul hp, Nat.mod_lt p hn, hp]
  · rw [List.getElem?_eq_none (by simpa [List.length_product] using hp),
      List.getElem?_eq_none (by simpa using hp)]

section

variable (v₁ v₂ : KPoint ℝ) (n : ℕ)

/-- The points of the grid by their places. -/
noncomputable def zoneGrid : List (KPoint ℝ) :=
  (List.range (n * n)).map fun p ↦ refinedPoint v₁ v₂ n (p / n : ℕ) (p % n : ℕ)

/-- The grid has the square of the number of steps as its size. -/
theorem length_zoneGrid : (zoneGrid v₁ v₂ n).length = n * n := by
  rw [zoneGrid, List.length_map, List.length_range]

/-- The grid is built when there is memory for it. -/
theorem uniformGrid_eq_zoneGrid (hroom : n * n * pointSize < memoryLimit) :
    uniformGrid v₁ v₂ n = .ok (zoneGrid v₁ v₂ n) := by
  rw [uniformGrid_eq hroom, range_product, List.map_map, zoneGrid]
  exact congrArg Except.ok (List.map_congr_left fun p _ ↦ corner_eq_refinedPoint v₁ v₂ n _ _)

/-- The coordinates of a point are the quotient and the remainder of its place. -/
theorem zoneGrid_get (p : Fin (zoneGrid v₁ v₂ n).length) : (zoneGrid v₁ v₂ n).get p =
    refinedPoint v₁ v₂ n (p / n : ℕ) (p % n : ℕ) := by
  unfold zoneGrid at p ⊢
  rw [List.get_eq_getElem, List.getElem_map, List.getElem_range]

/-- The coordinates of a point lead back to its place. -/
theorem gridPlace_zoneGrid (p : Fin (zoneGrid v₁ v₂ n).length) :
    gridPlace n (p / n : ℕ) (p % n : ℕ) = p :=
  gridPlace_div_mod (p.isLt.trans_eq (length_zoneGrid v₁ v₂ n))

end

/-- Each point of the divided zone is congruent to one point of a grid, whose place its residues
give. Each step to another corner of a plaquette permutes the places of the grid, up to
congruence. -/
structure IsZoneTransversal (v₁ v₂ : KPoint ℝ) (n : ℕ) (grid : List (KPoint ℝ)) : Prop where
  length_eq : grid.length = n ^ 2
  nodup : grid.Nodup
  place_lt (a b : ℤ) : (a % n).toNat * n + (b % n).toNat < grid.length
  congruent_iff (a b : ℤ) (p : Fin grid.length) :
    ZoneCongruent v₁ v₂ ((v₁ * (a : ℝ) + v₂ * (b : ℝ)) / (n : ℝ)) (grid.get p) ↔
      (p : ℕ) = (a % n).toNat * n + (b % n).toNat
  corners : ∀ step ∈ [fun k ↦ k + v₁ / (n : ℝ), fun k ↦ k + v₂ / (n : ℝ),
      fun k ↦ k + v₁ / (n : ℝ) + v₂ / (n : ℝ)],
    ∃ σ : Equiv.Perm (Fin grid.length), ∀ p q,
      ZoneCongruent v₁ v₂ (step (grid.get p)) (grid.get q) ↔ q = σ p

section

variable {v₁ v₂ : KPoint ℝ} {n : ℕ} (hn : 0 < n) (hcross : v₁.cross v₂ ≠ 0)

include hn hcross

/-- A point of the divided zone is congruent to the point of the grid at its place, and to no
other. -/
theorem zoneCongruent_get_iff (a b : ℤ) (p : Fin (zoneGrid v₁ v₂ n).length) :
    ZoneCongruent v₁ v₂ (refinedPoint v₁ v₂ n a b) ((zoneGrid v₁ v₂ n).get p) ↔
      (p : ℕ) = gridPlace n a b := by
  rw [zoneGrid_get, zoneCongruent_refinedPoint_iff hn.ne' hcross, ← gridPlace_eq_iff hn,
    gridPlace_zoneGrid, eq_comm]

/-- No point stands twice in the grid. -/
theorem nodup_zoneGrid : (zoneGrid v₁ v₂ n).Nodup := by
  rw [List.nodup_iff_injective_get]
  intro p q hpq
  rw [zoneGrid_get, zoneGrid_get] at hpq
  obtain ⟨hrow, hcolumn⟩ := refinedPoint_injective hn.ne' hcross hpq
  refine Fin.ext ?_
  rw [← Nat.div_add_mod p n, Nat.cast_injective hrow, Nat.cast_injective hcolumn, Nat.div_add_mod]

/-- A step between points of the divided zone permutes the grid. -/
theorem exists_perm_step (step : KPoint ℝ → KPoint ℝ) (s t : ℤ)
    (hstep : ∀ a b, step (refinedPoint v₁ v₂ n a b) = refinedPoint v₁ v₂ n (a + s) (b + t)) :
    ∃ σ : Equiv.Perm (Fin (zoneGrid v₁ v₂ n).length), ∀ p q,
      ZoneCongruent v₁ v₂ (step ((zoneGrid v₁ v₂ n).get p)) ((zoneGrid v₁ v₂ n).get q) ↔
        q = σ p := by
  let place (p : Fin (zoneGrid v₁ v₂ n).length) : Fin (zoneGrid v₁ v₂ n).length :=
    ⟨gridPlace n ((p / n : ℕ) + s) ((p % n : ℕ) + t),
      (gridPlace_lt hn _ _).trans_eq (length_zoneGrid v₁ v₂ n).symm⟩
  -- Coordinates that are congruent after a step were so before it, and a place has its own ones.
  have hinjective : Function.Injective place := by
    intro p q hpq
    obtain ⟨hrow, hcolumn⟩ := (gridPlace_eq_iff hn).mp (congrArg Fin.val hpq)
    have hplace := (gridPlace_eq_iff hn).mpr
      ⟨Int.ModEq.add_right_cancel' s hrow, Int.ModEq.add_right_cancel' t hcolumn⟩
    rw [gridPlace_zoneGrid, gridPlace_zoneGrid] at hplace
    exact Fin.ext hplace
  refine ⟨.ofBijective place (Finite.injective_iff_bijective.mp hinjective), fun p q ↦ ?_⟩
  rw [zoneGrid_get _ _ _ p, hstep, zoneCongruent_get_iff hn hcross, Equiv.ofBijective_apply,
    Fin.ext_iff]

/-- The grid has one point for each class of the refined lattice up to steps of the zone. -/
theorem isZoneTransversal_zoneGrid : IsZoneTransversal v₁ v₂ n (zoneGrid v₁ v₂ n) where
  length_eq := (length_zoneGrid v₁ v₂ n).trans (sq n).symm
  nodup := nodup_zoneGrid hn hcross
  place_lt a b := (gridPlace_lt hn a b).trans_eq (length_zoneGrid v₁ v₂ n).symm
  congruent_iff := zoneCongruent_get_iff hn hcross
  corners := by
    simp only [List.forall_mem_cons]
    refine ⟨exists_perm_step hn hcross (fun k ↦ k + v₁ / (n : ℝ)) 1 0 fun a b ↦ ?_,
      exists_perm_step hn hcross (fun k ↦ k + v₂ / (n : ℝ)) 0 1 fun a b ↦ ?_,
      exists_perm_step hn hcross (fun k ↦ k + v₁ / (n : ℝ) + v₂ / (n : ℝ)) 1 1 fun a b ↦ ?_,
      List.forall_mem_nil _⟩
    · rw [refinedPoint_add_first, add_zero]
    · rw [refinedPoint_add_second, add_zero]
    · rw [refinedPoint_add_first, refinedPoint_add_second]

end

/-- The grid of a zone that independent vectors span is a transversal of the divided zone, if memory
can hold it, and there is a fault if it cannot. -/
theorem uniformGrid_transversal {v₁ v₂ : KPoint ℝ} (hcross : v₁.cross v₂ ≠ 0) {n : ℕ}
    (hn : 1 ≤ n) :
    (n * n * pointSize < memoryLimit →
      ∃ grid, uniformGrid v₁ v₂ n = .ok grid ∧ IsZoneTransversal v₁ v₂ n grid) ∧
    (memoryLimit ≤ n * n * pointSize → uniformGrid v₁ v₂ n = breakDown
      (if countLimit ≤ n * n then .overflow .multiply else .capacityOverflow)) :=
  ⟨fun hroom ↦ ⟨_, uniformGrid_eq_zoneGrid v₁ v₂ n hroom, isZoneTransversal_zoneGrid hn hcross⟩,
    uniformGrid_eq_fault⟩

/-- Two by two cells of an oblique zone. A point outside of it, on either side, is congruent to the
last one. -/
theorem uniformGrid_transversal_two :
    (⟨1, 0⟩ : KPoint ℝ).cross ⟨1, 2⟩ ≠ 0 ∧
    ∃ grid, uniformGrid (⟨1, 0⟩ : KPoint ℝ) ⟨1, 2⟩ 2 = .ok grid ∧ grid.length = 2 ^ 2 ∧
      grid.Nodup ∧ ∃ last : Fin grid.length, (last : ℕ) = 3 ∧
        ZoneCongruent ⟨1, 0⟩ ⟨1, 2⟩ (((⟨1, 0⟩ : KPoint ℝ) * ((-1 : ℤ) : ℝ) +
          (⟨1, 2⟩ : KPoint ℝ) * ((3 : ℤ) : ℝ)) / ((2 : ℕ) : ℝ)) (grid.get last) := by
  have hcross : (⟨1, 0⟩ : KPoint ℝ).cross ⟨1, 2⟩ ≠ 0 := by simp [Vec2.cross]
  obtain ⟨grid, hgrid, h⟩ := (uniformGrid_transversal hcross one_le_two).1 (by decide)
  have hplace : ((-1 : ℤ) % (2 : ℕ)).toNat * 2 + ((3 : ℤ) % (2 : ℕ)).toNat = 3 := by decide
  exact ⟨hcross, grid, hgrid, h.length_eq, h.nodup, ⟨3, hplace ▸ h.place_lt (-1) 3⟩, rfl,
    (h.congruent_iff (-1) 3 _).mpr hplace.symm⟩

/-- A grid of more points than can be counted. -/
theorem uniformGrid_overflow : (⟨1, 0⟩ : KPoint ℝ).cross ⟨0, 1⟩ ≠ 0 ∧ 1 ≤ 4294967296 ∧
    uniformGrid (⟨1, 0⟩ : KPoint ℝ) ⟨0, 1⟩ 4294967296 = breakDown (.overflow .multiply) := by
  refine ⟨by simp [Vec2.cross], by decide, ?_⟩
  exact uniformGrid_eq_fault (by decide)

end Moire
