import Moire.PlaneWave.Basis
import Moire.Proofs.HopDistance
import Std.Data.TreeSet.Lemmas

/-!
# The basis is a ball of the honeycomb

A round of growth scans the partners of the frontier alone. The invariant `Basis.Shelled` says that
after `radius` rounds the basis holds the waves at a distance of at most `radius` and the frontier
those at exactly `radius`; `Shelled.step` is the step of the induction and `grow_shelled` the run.
The rest of the module reads properties of the basis off the distance: its closed form, its
closure under tunnelling, and that scanning the frontier is as good as scanning the whole basis.
-/

namespace Moire.Basis

/-- A set with one more wave. -/
theorem mem_insert_iff {set : WaveSet} {first wave : PlaneWave} :
    wave ∈ set.insert first ↔ wave = first ∨ wave ∈ set := by
  rw [Std.TreeSet.mem_insert, Std.compare_eq_iff_eq, eq_comm]

/-- A scan puts the scanned waves into the basis and the new ones among them into the frontier. -/
theorem mem_foldl_adopt (scanned : List PlaneWave) (state : WaveSet × WaveSet) (wave : PlaneWave) :
    (wave ∈ (scanned.foldl adopt state).1 ↔ wave ∈ state.1 ∨ wave ∈ scanned) ∧
    (wave ∈ (scanned.foldl adopt state).2 ↔
      wave ∈ state.2 ∨ wave ∈ scanned ∧ wave ∉ state.1) := by
  induction scanned generalizing state with
  | nil => simp
  | cons first scanned ih =>
      by_cases hold : first ∈ state.1
      · have hadopt : adopt state first = state := by simp [adopt, hold]
        obtain ⟨hwaves, hfrontier⟩ := ih state
        rw [List.foldl_cons, hadopt, hwaves, hfrontier]
        by_cases heq : wave = first
        · subst heq
          simp [hold]
        · simp [heq]
      · have hadopt : adopt state first = (state.1.insert first, state.2.insert first) := by
          simp [adopt, hold]
        obtain ⟨hwaves, hfrontier⟩ := ih (state.1.insert first, state.2.insert first)
        rw [List.foldl_cons, hadopt, hwaves, hfrontier, mem_insert_iff, mem_insert_iff]
        by_cases heq : wave = first
        · subst heq
          simp [hold]
        · simp [heq]

/-- The basis is the ball of a given radius and its frontier the sphere. -/
structure Shelled (basis : Basis) (radius : Nat) : Prop where
  hops : basis.hops = radius
  mem_waves : ∀ wave, wave ∈ basis.waves ↔ wave.distance ≤ radius
  mem_frontier : ∀ wave, wave ∈ basis.frontier ↔ wave.distance = radius

/-- Before its first round the basis is the origin alone. -/
theorem seed_shelled : seed.Shelled 0 where
  hops := rfl
  mem_waves wave := by
    rw [seed, mem_insert_iff, Nat.le_zero, PlaneWave.distance_eq_zero_iff]
    simp
  mem_frontier wave := by
    rw [seed, mem_insert_iff, PlaneWave.distance_eq_zero_iff]
    simp

/-- The partners of the frontier that the basis lacks are the next sphere. -/
theorem Shelled.next_sphere {basis : Basis} {radius : Nat} (h : basis.Shelled radius)
    (wave : PlaneWave) :
    wave ∈ basis.frontier.toList.flatMap PlaneWave.partners ∧ wave ∉ basis.waves ↔
      wave.distance = radius + 1 := by
  simp only [List.mem_flatMap, Std.TreeSet.mem_toList, h.mem_frontier, h.mem_waves]
  constructor
  · rintro ⟨⟨v, hv, hpartner⟩, hout⟩
    have hle := PlaneWave.distance_le_of_partner hpartner
    omega
  · intro hwave
    obtain ⟨v, hpartner, hv⟩ := PlaneWave.exists_inner_partner hwave
    exact ⟨⟨v, hv, PlaneWave.partners_symm hpartner⟩, by omega⟩

/-- A round takes the ball to the next one. -/
theorem Shelled.step {basis : Basis} {radius : Nat} (h : basis.Shelled radius) :
    basis.step.Shelled (radius + 1) := by
  refine ⟨congrArg (· + 1) h.hops, fun wave ↦ ?_, fun wave ↦ ?_⟩
  · -- A scanned wave is either known or on the next sphere.
    have hscan := (mem_foldl_adopt (basis.frontier.toList.flatMap PlaneWave.partners)
      (basis.waves, ∅) wave).1
    have hsphere := h.next_sphere wave
    rw [Basis.step, hscan, h.mem_waves]
    rw [h.mem_waves] at hsphere
    by_cases hin : wave.distance ≤ radius
    · simp only [hin, true_or, true_iff]
      omega
    · simp only [hin, false_or, not_false_eq_true, and_true] at hsphere ⊢
      rw [hsphere]
      omega
  · have hscan := (mem_foldl_adopt (basis.frontier.toList.flatMap PlaneWave.partners)
      (basis.waves, ∅) wave).2
    rw [Basis.step, hscan, ← h.next_sphere wave]
    simp

/-- After every number of rounds the basis is the ball of that radius. -/
theorem grow_shelled (rounds : Nat) : (grow rounds).Shelled rounds := by
  induction rounds with
  | zero => exact seed_shelled
  | succ rounds ih => exact ih.step

/-- A wave belongs to the basis if it is at most as many processes away as there were rounds. -/
theorem grow_contains (rounds : Nat) (wave : PlaneWave) :
    (grow rounds).contains wave = true ↔ wave.distance ≤ rounds :=
  (grow_shelled rounds).mem_waves wave

/-- The last round added the waves at the distance of that round. -/
theorem grow_frontier_contains (rounds : Nat) (wave : PlaneWave) :
    (grow rounds).frontier.contains wave = true ↔ wave.distance = rounds :=
  (grow_shelled rounds).mem_frontier wave

/-- The waves come in the order of layer, `m` and `n`, each once. -/
theorem waves_ordered (basis : Basis) :
    basis.toList.Pairwise fun v w ↦
      v.layer.tag < w.layer.tag ∨ v.layer = w.layer ∧ (v.m < w.m ∨ v.m = w.m ∧ v.n < w.n) :=
  Std.TreeSet.ordered_toList.imp PlaneWave.compare_eq_lt_iff.mp

/-- The closed form of the basis: the bottom waves up to half the number of rounds in the hexagonal
norm, and the top waves next to them. The frontier is where the bound is attained, on the bottom
for an even number of rounds and on the top for an odd one. Up to `2³² - 2` rounds every partner
that the growth looks at fits its words. -/
theorem grow_closed_form (rounds : Nat) :
    (∀ m n, (grow rounds).contains ⟨.bottom, m, n⟩ = true ↔
      2 * LatticeIndex.norm ⟨m, n⟩ ≤ rounds) ∧
    (∀ m n, (grow rounds).contains ⟨.top, m, n⟩ = true ↔
      2 * min (LatticeIndex.norm ⟨m, n⟩)
        (min (LatticeIndex.norm ⟨m - 1, n⟩) (LatticeIndex.norm ⟨m, n - 1⟩)) + 1 ≤ rounds) ∧
    (∀ m n, (grow rounds).frontier.contains ⟨.bottom, m, n⟩ = true ↔
      2 * LatticeIndex.norm ⟨m, n⟩ = rounds) ∧
    (∀ m n, (grow rounds).frontier.contains ⟨.top, m, n⟩ = true ↔
      2 * min (LatticeIndex.norm ⟨m, n⟩)
        (min (LatticeIndex.norm ⟨m - 1, n⟩) (LatticeIndex.norm ⟨m, n - 1⟩)) + 1 = rounds) ∧
    (∀ wave, (grow rounds).frontier.contains wave = true →
      wave.layer = if rounds % 2 = 0 then .bottom else .top) ∧
    (∀ wave, wave ∈ (grow rounds).toList ↔ (grow rounds).contains wave = true) ∧
    ((grow rounds).toList.Pairwise fun v w ↦
      v.layer.tag < w.layer.tag ∨ v.layer = w.layer ∧ (v.m < w.m ∨ v.m = w.m ∧ v.n < w.n)) ∧
    (rounds ≤ 4294967294 → ∀ earlier < rounds, ∀ wave,
      (grow earlier).frontier.contains wave = true → wave.partners32 = .ok wave.partners) := by
  refine ⟨fun m n ↦ grow_contains rounds _, fun m n ↦ grow_contains rounds _,
    fun m n ↦ grow_frontier_contains rounds _, fun m n ↦ grow_frontier_contains rounds _,
    fun wave hwave ↦ ?_, fun wave ↦ Std.TreeSet.mem_toList, waves_ordered _,
    fun hrounds earlier hearlier wave hwave ↦ ?_⟩
  · rw [grow_frontier_contains] at hwave
    rw [← hwave]
    exact wave.distance_mod_two
  · rw [grow_frontier_contains] at hwave
    exact PlaneWave.partners32_eq_ok (by omega)

/-- After three rounds the frontier is on the top and reaches `(2, 0)` there, while the bottom stays
within norm one. -/
theorem grow_closed_form_three :
    (grow 3).contains ⟨.bottom, 1, -1⟩ = true ∧ ¬ (grow 3).contains ⟨.bottom, 2, 0⟩ = true ∧
    (grow 3).frontier.contains ⟨.top, 2, 0⟩ = true ∧
    (grow 2).frontier.contains ⟨.bottom, 1, -1⟩ = true ∧
    PlaneWave.partners32 ⟨.bottom, 1, -1⟩ = .ok (PlaneWave.partners ⟨.bottom, 1, -1⟩) := by
  obtain ⟨hbottom, _, _, htop, _, _, _, hwords⟩ := grow_closed_form 3
  have hearlier : (grow 2).frontier.contains ⟨.bottom, 1, -1⟩ = true :=
    ((grow_closed_form 2).2.2.1 1 (-1)).mpr (by decide)
  exact ⟨(hbottom 1 (-1)).mpr (by decide), fun h ↦ absurd ((hbottom 2 0).mp h) (by decide),
    (htop 2 0).mpr (by decide), hearlier, hwords (by decide) 2 (by decide) _ hearlier⟩

/-! ## Closure under tunnelling -/

/-- A missing partner is listed with each wave of the basis that tunnels to it. -/
theorem mem_dangling_iff {basis : Basis} {v p : PlaneWave} :
    (v, p) ∈ basis.dangling ↔
      basis.contains v = true ∧ p ∈ v.partners ∧ ¬ basis.contains p = true := by
  simp only [dangling, toList, contains, List.mem_filter, List.mem_flatMap, List.mem_map,
    Std.TreeSet.mem_toList, Prod.mk.injEq, Bool.not_eq_true', Bool.not_eq_true]
  constructor
  · rintro ⟨⟨w, hw, q, hq, rfl, rfl⟩, hmissing⟩
    exact ⟨hw, hq, hmissing⟩
  · rintro ⟨hv, hp, hmissing⟩
    exact ⟨⟨v, hv, p, hp, rfl, rfl⟩, hmissing⟩

/-- Tunnelling leaves a grown basis from its last sphere to the next one. -/
theorem distance_of_dangling {rounds : Nat} {v p : PlaneWave}
    (h : (v, p) ∈ (grow rounds).dangling) : v.distance = rounds ∧ p.distance = rounds + 1 := by
  obtain ⟨hv, hp, hmissing⟩ := mem_dangling_iff.mp h
  rw [grow_contains] at hv hmissing
  have hle := PlaneWave.distance_le_of_partner hp
  omega

/-- Every wave of the next sphere is a missing partner. -/
theorem exists_dangling {rounds : Nat} {p : PlaneWave} (h : p.distance = rounds + 1) :
    ∃ v, (v, p) ∈ (grow rounds).dangling := by
  obtain ⟨v, hpartner, hv⟩ := PlaneWave.exists_inner_partner h
  refine ⟨v, mem_dangling_iff.mpr ⟨?_, PlaneWave.partners_symm hpartner, ?_⟩⟩
  · rw [grow_contains]
    omega
  · rw [grow_contains]
    omega

/-- A grown basis is closed: tunnelling leaves it from the frontier alone, and what it reaches is
the next frontier. The next basis adds that frontier to this one, which is the same as adding all
partners of all waves. Up to `2³² - 3` rounds every partner of the basis fits its words. -/
theorem grow_closed (rounds : Nat) :
    (grow rounds).isClosed = true ∧
    (∀ v p, (v, p) ∈ (grow rounds).dangling → (grow rounds).frontier.contains v = true) ∧
    (∀ v, (grow rounds).contains v = true → ¬ (grow rounds).frontier.contains v = true →
      ∀ p ∈ v.partners, (grow rounds).contains p = true) ∧
    (∀ p, (∃ v, (v, p) ∈ (grow rounds).dangling) ↔
      (grow (rounds + 1)).frontier.contains p = true) ∧
    (∀ w, (grow (rounds + 1)).contains w = true ↔
      (grow rounds).contains w = true ∨ (grow (rounds + 1)).frontier.contains w = true) ∧
    (∀ w, ¬ ((grow rounds).contains w = true ∧
      (grow (rounds + 1)).frontier.contains w = true)) ∧
    (∀ w, (grow (rounds + 1)).contains w = true ↔
      (grow rounds).contains w = true ∨
        ∃ v, (grow rounds).contains v = true ∧ w ∈ v.partners) ∧
    (rounds ≤ 4294967293 → ∀ v, (grow rounds).contains v = true →
      v.partners32 = .ok v.partners) := by
  have hsource : ∀ v p, (v, p) ∈ (grow rounds).dangling →
      (grow rounds).frontier.contains v = true := by
    intro v p h
    rw [grow_frontier_contains]
    exact (distance_of_dangling h).1
  refine ⟨?_, hsource, ?_, ?_, ?_, ?_, ?_, ?_⟩
  · rw [isClosed, List.all_eq_true]
    exact fun pair hpair ↦ hsource pair.1 pair.2 hpair
  · intro v hv hinner p hp
    rw [grow_contains] at hv ⊢
    rw [grow_frontier_contains] at hinner
    have hle := PlaneWave.distance_le_of_partner hp
    omega
  · intro p
    rw [grow_frontier_contains]
    exact ⟨fun ⟨v, h⟩ ↦ (distance_of_dangling h).2, exists_dangling⟩
  · intro w
    rw [grow_contains, grow_contains, grow_frontier_contains]
    omega
  · intro w
    rw [grow_contains, grow_frontier_contains]
    omega
  · intro w
    simp only [grow_contains]
    constructor
    · intro hw
      by_cases hin : w.distance ≤ rounds
      · exact Or.inl hin
      · obtain ⟨v, hpartner, hv⟩ :=
          PlaneWave.exists_inner_partner (show w.distance = rounds + 1 by omega)
        exact Or.inr ⟨v, by omega, PlaneWave.partners_symm hpartner⟩
    · rintro (hw | ⟨v, hv, hpartner⟩)
      · omega
      · have hle := PlaneWave.distance_le_of_partner hpartner
        omega
  · intro hrounds v hv
    rw [grow_contains] at hv
    exact PlaneWave.partners32_eq_ok (by omega)

/-- After one round the origin is inside and has its three partners, and tunnelling leaves the basis
from the top towards `(1, 0)` on the bottom. -/
theorem grow_closed_one :
    (grow 1).contains .origin = true ∧ ¬ (grow 1).frontier.contains .origin = true ∧
    (∀ p ∈ PlaneWave.origin.partners, (grow 1).contains p = true) ∧
    (grow 2).frontier.contains ⟨.bottom, 1, 0⟩ = true ∧
    (∃ v, (v, ⟨.bottom, 1, 0⟩) ∈ (grow 1).dangling ∧ (grow 1).frontier.contains v = true) ∧
    PlaneWave.origin.partners32 = .ok PlaneWave.origin.partners := by
  obtain ⟨_, hsource, hinner, hmissing, _, _, _, hwords⟩ := grow_closed 1
  have hin : (grow 1).contains .origin = true := (grow_contains 1 _).mpr (by decide)
  have hout : ¬ (grow 1).frontier.contains .origin = true := fun h ↦
    absurd ((grow_frontier_contains 1 _).mp h) (by decide)
  have hnext : (grow 2).frontier.contains ⟨.bottom, 1, 0⟩ = true :=
    (grow_frontier_contains 2 _).mpr (by decide)
  obtain ⟨v, hv⟩ := (hmissing ⟨.bottom, 1, 0⟩).mpr hnext
  exact ⟨hin, hout, hinner _ hin hout, hnext, ⟨v, hv, hsource v _ hv⟩, hwords (by decide) _ hin⟩

end Moire.Basis
