import Mathlib
import Moire.Proofs.BasisShells
import Moire.Proofs.LatticeClosure
import Moire.Proofs.ThreefoldRotation

/-!
# The sizes of shells

The waves at a given distance from the origin lie on the rim of a hexagon of the honeycomb. Turns by
120 degrees take each pair of neighbouring sides to the next one, so that the rim is three copies of
`PlaneWave.sector`, which has as many waves as its distance says. Everything else is counted by
this: a round of growth of the basis adds one rim, and a round of growth of the lattice adds the rim
of the bottom waves at an even distance.
-/

namespace Moire

namespace PlaneWave

/-! ## The rim of a hexagon -/

/-- The layer of the waves at a distance. -/
def sideAt (radius : ℕ) : Layer := if radius % 2 = 0 then .bottom else .top

/-- Two neighbouring sides of the hexagon of waves at a distance, without their last corner. -/
def sector (radius : ℕ) : List PlaneWave :=
  (List.range (radius / 2)).map (fun t ↦ ⟨sideAt radius, (radius - radius / 2 : ℕ), -t⟩) ++
    (List.range (radius - radius / 2)).map fun t ↦
      ⟨sideAt radius, (radius - radius / 2 : ℕ) - t, -(radius / 2 : ℕ)⟩

/-- A sector has as many waves as its distance says. -/
theorem length_sector (radius : ℕ) : (sector radius).length = radius := by
  simp only [sector, List.length_append, List.length_map, List.length_range]
  omega

/-- The waves of a sector by their indices: those of the one side and those of the other. -/
theorem mem_sector_iff {radius : ℕ} {u : PlaneWave} :
    u ∈ sector radius ↔ u.layer = sideAt radius ∧
      (u.m = (radius - radius / 2 : ℕ) ∧ -(radius / 2 : ℕ) < u.n ∧ u.n ≤ 0 ∨
        u.n = -(radius / 2 : ℕ) ∧ 0 < u.m ∧ u.m ≤ (radius - radius / 2 : ℕ)) := by
  obtain ⟨side, m, n⟩ := u
  simp only [sector, List.mem_append, List.mem_map, List.mem_range, mk.injEq]
  constructor
  · rintro (⟨t, ht, rfl, rfl, rfl⟩ | ⟨t, ht, rfl, rfl, rfl⟩)
    · exact ⟨rfl, Or.inl ⟨rfl, by omega, by omega⟩⟩
    · exact ⟨rfl, Or.inr ⟨rfl, by omega, by omega⟩⟩
  · rintro ⟨rfl, ⟨rfl, hlow, hhigh⟩ | ⟨rfl, hlow, hhigh⟩⟩
    · exact Or.inl ⟨n.natAbs, by omega, rfl, rfl, by omega⟩
    · exact Or.inr ⟨((radius - radius / 2 : ℕ) - m).natAbs, by omega, rfl, by omega, rfl⟩

/-- No wave stands twice in a sector. -/
theorem nodup_sector (radius : ℕ) : (sector radius).Nodup := by
  refine List.Nodup.append (List.nodup_range.map ?_) (List.nodup_range.map ?_) ?_
  · intro t t' h
    simpa using h
  · intro t t' h
    simpa using h
  · intro u hfirst hsecond
    simp only [List.mem_map, List.mem_range] at hfirst hsecond
    obtain ⟨t, ht, rfl⟩ := hfirst
    obtain ⟨t', ht', h⟩ := hsecond
    rw [mk.injEq] at h
    omega

/-- Three turns go once around. -/
theorem turn_turn_turn (u : PlaneWave) : u.turn.turn.turn = u := by
  obtain ⟨side, m, n⟩ := u
  cases side <;> simp only [turn, mk.injEq, true_and] <;> constructor <;> ring

@[simp] theorem turn_n (u : PlaneWave) : u.turn.n = u.m := by
  obtain ⟨side, m, n⟩ := u
  cases side <;> rfl

@[simp] theorem turn_turn_m (u : PlaneWave) : u.turn.turn.m = u.n := by
  rw [← turn_n, turn_turn_turn]

/-- A wave is among the turned ones just if turning it twice more leads back into the list. -/
theorem mem_map_turn_iff {waves : List PlaneWave} {u : PlaneWave} :
    u ∈ waves.map turn ↔ u.turn.turn ∈ waves := by
  rw [List.mem_map]
  constructor
  · rintro ⟨v, hv, rfl⟩
    rwa [turn_turn_turn]
  · exact fun hu ↦ ⟨_, hu, turn_turn_turn u⟩

/-- The wave lies in the hexagon of a given radius: its three coordinates, which a turn takes into
each other, are bounded. -/
@[mk_iff]
structure InHexagon (radius : ℕ) (u : PlaneWave) : Prop where
  layer : u.layer = sideAt radius
  first : -(radius / 2 : ℕ) ≤ u.m ∧ u.m ≤ (radius - radius / 2 : ℕ)
  second : -(radius / 2 : ℕ) ≤ u.n ∧ u.n ≤ (radius - radius / 2 : ℕ)
  third : -(radius / 2 : ℕ) ≤ u.turn.m ∧ u.turn.m ≤ (radius - radius / 2 : ℕ)

/-- A hexagon is turned into itself. -/
theorem InHexagon.turn {radius : ℕ} {u : PlaneWave} (h : InHexagon radius u) :
    InHexagon radius u.turn where
  layer := u.layer_turn.trans h.layer
  first := h.third
  second := by
    rw [turn_n]
    exact h.first
  third := by
    rw [turn_turn_m]
    exact h.second

/-- The three coordinates add up to zero on the bottom and to one on the top. -/
theorem coordinates_add {radius : ℕ} {u : PlaneWave} (hlayer : u.layer = sideAt radius) :
    u.m + u.n + u.turn.m = radius - 2 * (radius / 2 : ℕ) := by
  obtain ⟨side, m, n⟩ := u
  unfold sideAt at hlayer
  split at hlayer <;> subst hlayer <;> simp only [PlaneWave.turn] <;> omega

/-- Among the waves of one layer the hexagon bounds the distance. -/
theorem inHexagon_iff_distance_le {radius : ℕ} {u : PlaneWave} (hlayer : u.layer = sideAt radius) :
    InHexagon radius u ↔ u.distance ≤ radius := by
  rw [inHexagon_iff, and_iff_right hlayer]
  obtain ⟨side, m, n⟩ := u
  unfold sideAt at hlayer
  split at hlayer <;> subst hlayer
  next heven =>
    have hle : distance ⟨.bottom, m, n⟩ ≤ radius ↔ LatticeIndex.norm ⟨m, n⟩ ≤ radius / 2 := by
      rw [distance_bottom]
      omega
    rw [hle, LatticeIndex.norm_le_iff]
    simp only [PlaneWave.turn]
    omega
  next hodd =>
    have hle : distance ⟨.top, m, n⟩ ≤ radius ↔ LatticeIndex.norm ⟨m, n⟩ ≤ radius / 2 ∨
        LatticeIndex.norm ⟨m - 1, n⟩ ≤ radius / 2 ∨ LatticeIndex.norm ⟨m, n - 1⟩ ≤ radius / 2 := by
      rw [distance_top]
      omega
    rw [hle, LatticeIndex.norm_le_iff, LatticeIndex.norm_le_iff, LatticeIndex.norm_le_iff]
    simp only [PlaneWave.turn]
    omega

/-- The waves on the first side belong to the sector. -/
theorem InHexagon.mem_sector {radius : ℕ} {u : PlaneWave} (h : InHexagon radius u)
    (hradius : 1 ≤ radius) (hside : u.m = (radius - radius / 2 : ℕ)) : u ∈ sector radius := by
  have hsum := coordinates_add h.layer
  have hsecond := h.second
  have hthird := h.third
  rw [mem_sector_iff]
  refine ⟨h.layer, ?_⟩
  omega

/-- The waves on the second side belong to the sector, except for the last corner, where the next
sector begins. -/
theorem InHexagon.mem_sector_or {radius : ℕ} {u : PlaneWave} (h : InHexagon radius u)
    (hradius : 1 ≤ radius) (hside : u.n = -(radius / 2 : ℕ)) :
    u ∈ sector radius ∨ u.turn ∈ sector radius := by
  have hsum := coordinates_add h.layer
  have hfirst := h.first
  have hthird := h.third
  by_cases hcorner : u.m ≤ 0
  · exact Or.inr (h.turn.mem_sector hradius (by omega))
  · rw [mem_sector_iff]
    exact Or.inl ⟨h.layer, Or.inr ⟨hside, by omega, hfirst.2⟩⟩

/-- The waves of the sector are in the hexagon. -/
theorem inHexagon_of_mem_sector {radius : ℕ} {u : PlaneWave} (h : u ∈ sector radius) :
    InHexagon radius u := by
  obtain ⟨hlayer, hside⟩ := mem_sector_iff.mp h
  have hsum := coordinates_add hlayer
  exact ⟨hlayer, by omega, by omega, by omega⟩

/-- A wave is in the hexagon of its own distance. -/
theorem inHexagon_distance (u : PlaneWave) : InHexagon u.distance u :=
  (inHexagon_iff_distance_le u.distance_mod_two).mpr le_rfl

/-- The waves of a sector are at its distance. -/
theorem distance_of_mem_sector {radius : ℕ} {u : PlaneWave} (h : u ∈ sector radius) :
    u.distance = radius := by
  obtain ⟨hlayer, hside⟩ := mem_sector_iff.mp h
  have hle : u.distance ≤ radius :=
    (inHexagon_iff_distance_le hlayer).mp (inHexagon_of_mem_sector h)
  -- A smaller hexagon reaches neither of the two sides.
  obtain ⟨-, hfirst, hsecond, -⟩ := u.inHexagon_distance
  have hparity : u.distance % 2 = 0 ↔ radius % 2 = 0 := by
    have hsame := u.distance_mod_two.symm.trans hlayer
    unfold sideAt at hsame
    split at hsame <;> split at hsame <;> simp_all
  omega

/-- A wave at the distance of the hexagon is on one of its six sides. -/
theorem InHexagon.on_side {radius : ℕ} {u : PlaneWave} (h : InHexagon radius u)
    (hradius : 1 ≤ radius) (hdistance : u.distance = radius) :
    (u.m = (radius - radius / 2 : ℕ) ∨ u.n = -(radius / 2 : ℕ)) ∨
      (u.turn.m = (radius - radius / 2 : ℕ) ∨ u.m = -(radius / 2 : ℕ)) ∨
        (u.n = (radius - radius / 2 : ℕ) ∨ u.turn.m = -(radius / 2 : ℕ)) := by
  by_contra hinside
  obtain ⟨hlayer, hfirst, hsecond, hthird⟩ := h
  have hsum := coordinates_add hlayer
  have hlarge : 2 ≤ radius := by omega
  have hsmaller : InHexagon (radius - 2) u := by
    refine ⟨?_, by omega, by omega, by omega⟩
    rw [hlayer, sideAt, sideAt, show (radius - 2) % 2 = radius % 2 by omega]
  have hle := (inHexagon_iff_distance_le hsmaller.layer).mp hsmaller
  omega

/-- The waves at a distance, sector by sector. -/
def rim (radius : ℕ) : List PlaneWave :=
  sector radius ++ ((sector radius).map turn ++ ((sector radius).map turn).map turn)

/-- A rim is three sectors long. -/
theorem length_rim (radius : ℕ) : (rim radius).length = 3 * radius := by
  simp only [rim, List.length_append, List.length_map, length_sector]
  ring

/-- A wave is on the rim just if one of its turns is in the sector. -/
theorem mem_rim_iff_sector {radius : ℕ} {u : PlaneWave} : u ∈ rim radius ↔
    u ∈ sector radius ∨ u.turn.turn ∈ sector radius ∨ u.turn ∈ sector radius := by
  rw [rim, List.mem_append, List.mem_append, mem_map_turn_iff, mem_map_turn_iff, mem_map_turn_iff,
    turn_turn_turn]

/-- The waves of the rim are those at its distance. -/
theorem mem_rim_iff {radius : ℕ} (hradius : 1 ≤ radius) {u : PlaneWave} :
    u ∈ rim radius ↔ u.distance = radius := by
  rw [mem_rim_iff_sector]
  constructor
  · rintro (h | h | h)
    · exact distance_of_mem_sector h
    · rw [← u.distance_turn, ← u.turn.distance_turn]
      exact distance_of_mem_sector h
    · rw [← u.distance_turn]
      exact distance_of_mem_sector h
  · intro hdistance
    have h : InHexagon radius u := hdistance ▸ u.inHexagon_distance
    rcases h.on_side hradius hdistance with (hside | hside) | (hside | hside) | hside | hside
    · exact Or.inl (h.mem_sector hradius hside)
    · exact (h.mem_sector_or hradius hside).imp_right Or.inr
    · exact Or.inr (Or.inr (h.turn.mem_sector hradius hside))
    · have hturned := h.turn.mem_sector_or hradius (u.turn_n.trans hside)
      exact Or.inr hturned.symm
    · exact Or.inr (Or.inl (h.turn.turn.mem_sector hradius (u.turn_turn_m.trans hside)))
    · have hturned := h.turn.turn.mem_sector_or hradius (u.turn.turn_n.trans hside)
      rw [turn_turn_turn] at hturned
      exact hturned.symm.imp_right Or.inl

/-- No wave of the sector is turned into another one. -/
theorem turn_notMem_sector {radius : ℕ} {u : PlaneWave} (h : u ∈ sector radius) :
    u.turn ∉ sector radius := by
  intro hturn
  obtain ⟨-, hside⟩ := mem_sector_iff.mp h
  obtain ⟨-, hside'⟩ := mem_sector_iff.mp hturn
  rw [turn_n] at hside'
  omega

/-- No wave stands twice on a rim. -/
theorem nodup_rim (radius : ℕ) : (rim radius).Nodup := by
  have hsector := nodup_sector radius
  have hturned := hsector.map turn_injective
  have hfirst : (sector radius).Disjoint ((sector radius).map turn) := by
    intro u hu hmem
    have hback := turn_notMem_sector (mem_map_turn_iff.mp hmem)
    rw [turn_turn_turn] at hback
    exact hback hu
  have hsecond : (sector radius).Disjoint (((sector radius).map turn).map turn) := by
    intro u hu hmem
    rw [mem_map_turn_iff, mem_map_turn_iff, turn_turn_turn] at hmem
    exact turn_notMem_sector hu hmem
  have hthird := List.disjoint_map turn_injective hfirst
  exact hsector.append (hturned.append (hturned.map turn_injective) hthird)
    (List.disjoint_append_right.mpr ⟨hfirst, hsecond⟩)

/-- A list of the waves at a distance, each once, is as long as the rim. -/
theorem length_of_distance {waves : List PlaneWave} {radius : ℕ} (hradius : 1 ≤ radius)
    (hnodup : waves.Nodup) (hmem : ∀ u, u ∈ waves ↔ u.distance = radius) :
    waves.length = 3 * radius := by
  have hperm : waves.Perm (rim radius) :=
    (List.perm_ext_iff_of_nodup hnodup (nodup_rim radius)).mpr fun u ↦
      (hmem u).trans (mem_rim_iff hradius).symm
  rw [hperm.length_eq, length_rim]

end PlaneWave

/-! ## The basis -/

namespace Basis

/-- No wave stands twice in a set of waves. -/
theorem nodup_toList (set : WaveSet) : set.toList.Nodup :=
  toList_nodup ⟨set, ∅, 0⟩

/-- A round adds as many waves as three times its number. -/
theorem size_frontier {rounds : ℕ} (hrounds : 1 ≤ rounds) :
    (grow rounds).frontier.size = 3 * rounds := by
  rw [← Std.TreeSet.length_toList]
  refine PlaneWave.length_of_distance hrounds (nodup_toList _) fun u ↦ ?_
  rw [Std.TreeSet.mem_toList]
  exact (grow_shelled rounds).mem_frontier u

/-- A round adds its frontier to the basis. -/
theorem size_grow_succ (rounds : ℕ) :
    (grow (rounds + 1)).size = (grow rounds).size + (grow (rounds + 1)).frontier.size := by
  have hfrontier := (grow_shelled (rounds + 1)).mem_frontier
  have hnodup : ((grow rounds).toList ++ (grow (rounds + 1)).frontier.toList).Nodup := by
    refine (toList_nodup _).append (nodup_toList _) fun u hold hnew ↦ ?_
    rw [mem_toList, grow_contains] at hold
    rw [Std.TreeSet.mem_toList, hfrontier] at hnew
    omega
  have hperm : (grow (rounds + 1)).toList.Perm
      ((grow rounds).toList ++ (grow (rounds + 1)).frontier.toList) := by
    refine (List.perm_ext_iff_of_nodup (toList_nodup _) hnodup).mpr fun u ↦ ?_
    rw [List.mem_append, mem_toList, mem_toList, grow_contains, grow_contains,
      Std.TreeSet.mem_toList, hfrontier]
    omega
  have hlength := hperm.length_eq
  rwa [List.length_append, length_toList, length_toList, Std.TreeSet.length_toList] at hlength

/-- Twice the number of waves, which is the dimension of the Hamiltonian. -/
theorem two_mul_size_grow (rounds : ℕ) :
    2 * (grow rounds).size = 2 + 3 * rounds * (rounds + 1) := by
  induction rounds with
  | zero => rfl
  | succ rounds ih =>
      rw [size_grow_succ, size_frontier (Nat.le_add_left 1 rounds), mul_add, ih]
      ring

end Basis

/-! ## The lattice -/

namespace Lattice

open Growth (shells shells_shelled foldl_keep)

/-- A round appends the rim of the next hexagon to the list of cells. -/
theorem exists_rim (radius : ℕ) : ∃ rim : List LatticeIndex,
    (shells (radius + 1)).indices.toList = (shells radius).indices.toList ++ rim ∧
      rim.Nodup ∧ ∀ cell, cell ∈ rim ↔ cell.norm = radius + 1 := by
  have h := shells_shelled radius
  have hstart : Growth.Consistent { shells radius with
      frontier := [], rounds := (shells radius).rounds + 1 } :=
    ⟨h.consistent.visited, h.consistent.nodup⟩
  obtain ⟨rim, hindices, -, -, hconsistent, hrim⟩ :=
    foldl_keep ((shells radius).frontier.reverse.flatMap LatticeIndex.neighbours) hstart
  have hnodup := hconsistent.nodup
  rw [hindices, List.nodup_append'] at hnodup
  exact ⟨rim, hindices, hnodup.2.1, fun cell ↦ (hrim cell).trans (h.next_rim cell)⟩

/-- A list of the cells of a norm, each once, has six times as many cells. -/
theorem length_of_norm {cells : List LatticeIndex} {radius : ℕ} (hradius : 1 ≤ radius)
    (hnodup : cells.Nodup) (hmem : ∀ cell, cell ∈ cells ↔ cell.norm = radius) :
    cells.length = 6 * radius := by
  -- The cells are the bottom waves at twice the distance.
  have hinjective : Function.Injective fun cell : LatticeIndex ↦
      (⟨.bottom, cell.i, cell.j⟩ : PlaneWave) := by
    intro cell other h
    obtain ⟨-, hi, hj⟩ := PlaneWave.mk.inj h
    cases cell
    cases other
    exact congrArg₂ _ hi hj
  have hwave : ∀ u : PlaneWave,
      u ∈ cells.map (fun cell ↦ ⟨.bottom, cell.i, cell.j⟩) ↔ u.distance = 2 * radius := by
    rintro ⟨side, m, n⟩
    rw [List.mem_map]
    cases side with
    | bottom =>
        rw [PlaneWave.distance_bottom]
        constructor
        · rintro ⟨⟨i, j⟩, hcell, h⟩
          obtain ⟨-, rfl, rfl⟩ := PlaneWave.mk.inj h
          rw [(hmem ⟨i, j⟩).mp hcell]
        · intro h
          exact ⟨⟨m, n⟩, (hmem ⟨m, n⟩).mpr (by omega), rfl⟩
    | top =>
        have hodd := PlaneWave.distance_top m n
        refine iff_of_false ?_ (by omega)
        rintro ⟨cell, -, h⟩
        cases h
  have hlength := PlaneWave.length_of_distance (by omega) (hnodup.map hinjective) hwave
  rw [List.length_map] at hlength
  omega

/-- Within a radius there are the centre and, on every rim, six cells for each unit of distance. -/
theorem length_shells (radius : ℕ) :
    (shells radius).indices.toList.length = 1 + 3 * radius * (radius + 1) := by
  induction radius with
  | zero => rfl
  | succ radius ih =>
      obtain ⟨rim, hindices, hnodup, hmem⟩ := exists_rim radius
      rw [hindices, List.length_append, ih, length_of_norm (Nat.le_add_left 1 radius) hnodup hmem]
      ring

/-- The list of a hexagon begins with the lists of the smaller ones. -/
theorem shells_mono {radius bound : ℕ} (h : radius ≤ bound) :
    (shells radius).indices.toList <+: (shells bound).indices.toList := by
  induction bound, h using Nat.le_induction with
  | base => exact List.prefix_rfl
  | succ bound _ ih =>
      obtain ⟨rim, hindices, -⟩ := exists_rim bound
      rw [hindices]
      exact ih.trans (List.prefix_append _ _)

/-- The cells of a smaller hexagon are those in front. -/
theorem norm_le_iff_position {radius bound p : ℕ} (h : radius ≤ bound) {cell : LatticeIndex}
    (hcell : (shells bound).indices.toList[p]? = some cell) :
    cell.norm ≤ radius ↔ p < 1 + 3 * radius * (radius + 1) := by
  obtain ⟨rest, hrest⟩ := shells_mono h
  have hnodup := (shells_shelled bound).consistent.nodup
  rw [← hrest] at hcell hnodup
  rw [← length_shells, ← (shells_shelled radius).mem_indices]
  constructor
  · intro hmem
    by_contra hp
    rw [List.getElem?_append_right (not_lt.mp hp)] at hcell
    exact List.disjoint_of_nodup_append hnodup hmem (List.mem_of_getElem? hcell)
  · intro hp
    rw [List.getElem?_append_left hp] at hcell
    exact List.mem_of_getElem? hcell

/-- The cells of a norm stand together, behind those of the smaller hexagons. -/
theorem exists_norm_eq_iff {radius bound p : ℕ} (hradius : 1 ≤ radius) (h : radius ≤ bound) :
    (∃ cell, (shells bound).indices[p]? = some cell ∧ cell.norm = radius) ↔
      1 + 3 * radius * (radius - 1) ≤ p ∧ p ≤ 3 * radius * (radius + 1) := by
  obtain ⟨inner, rfl⟩ : ∃ inner, radius = inner + 1 := ⟨radius - 1, by omega⟩
  have hinner : 3 * (inner + 1) * (inner + 1 - 1) = 3 * inner * (inner + 1) := by
    rw [Nat.add_sub_cancel, mul_right_comm]
  rw [hinner]
  constructor
  · rintro ⟨cell, hcell, hnorm⟩
    rw [← Array.getElem?_toList] at hcell
    have hwithin := norm_le_iff_position h hcell
    have hbeyond := norm_le_iff_position (Nat.le_of_succ_le h) hcell
    omega
  · rintro ⟨hlow, hhigh⟩
    have hlength := (shells_mono h).length_le
    rw [length_shells] at hlength
    have hp : p < (shells bound).indices.toList.length := by omega
    have hcell := List.getElem?_eq_getElem hp
    have hwithin := norm_le_iff_position h hcell
    have hbeyond := norm_le_iff_position (Nat.le_of_succ_le h) hcell
    exact ⟨_, Array.getElem?_toList.symm.trans hcell, by omega⟩

end Lattice

/-! ## Targets -/

/-- The cell has coordinates that fit their words, and its norm in words is a given number. -/
structure LatticeIndex.HasNorm (index : LatticeIndex) (steps : ℕ) : Prop where
  first : Word.signed32.holds index.i = true
  second : Word.signed32.holds index.j = true
  norm32 : index.norm32 = .ok steps

/-- An absolute value in words is the absolute value, and a word. -/
theorem Word.signed32_abs {x result : ℤ} (hword : x ≤ 2147483647)
    (h : signed32.abs x = .ok result) : result = x.natAbs ∧ result ≤ 2147483647 := by
  unfold Word.abs at h
  split at h
  next hneg =>
    have hbounds := bounds_of_check h
    rw [← eq_of_check h]
    exact ⟨by omega, hbounds.2⟩
  next hpos =>
    cases h
    exact ⟨by omega, hword⟩

/-- The norm in words is the norm, and a word. -/
theorem LatticeIndex.HasNorm.norm_eq {index : LatticeIndex} {steps : ℕ} (h : index.HasNorm steps) :
    index.norm = steps ∧ steps ≤ 2147483647 := by
  obtain ⟨hi, hj, hnorm⟩ := h
  obtain ⟨i, habsi, hnorm⟩ := bind_eq_ok.mp hnorm
  obtain ⟨j, habsj, hnorm⟩ := bind_eq_ok.mp hnorm
  obtain ⟨sum, hsum, hnorm⟩ := bind_eq_ok.mp hnorm
  obtain ⟨diagonal, habs, hnorm⟩ := bind_eq_ok.mp hnorm
  have hsteps : max (max i j) diagonal = steps := Except.ok.inj hnorm
  have hword := (Word.bounds_of_check hsum).2
  rw [Word.eq_of_check hsum] at hword
  have hfirst := Word.signed32_abs (Word.holds_iff.mp hi).2 habsi
  have hsecond := Word.signed32_abs (Word.holds_iff.mp hj).2 habsj
  have hdiagonal := Word.signed32_abs hword habs
  rw [← Word.eq_of_check hsum] at hdiagonal
  unfold LatticeIndex.norm
  omega

/-! ## Sizes -/

/-- The lists and the bases that growth generates have the sizes of hexagons. The list of a target
has the cells of each norm in one stretch, so a target farther out only appends to it, and the
dimension of the Hamiltonian counts two components for each wave of the basis. -/
theorem shell_sizes :
    (∀ (target : LatticeIndex) (steps maxRounds : ℕ), target.HasNorm steps → steps ≤ maxRounds →
      ∃ closure, Lattice.expandUntil target maxRounds = .ok closure ∧
        closure.indices.size = 1 + 3 * steps * (steps + 1) ∧
        (∀ k p, 1 ≤ k → k ≤ steps → ((∃ cell, closure.indices[p]? = some cell ∧ cell.norm = k) ↔
          1 + 3 * k * (k - 1) ≤ p ∧ p ≤ 3 * k * (k + 1))) ∧
        ∀ (farther : LatticeIndex) (steps' maxRounds' : ℕ), farther.HasNorm steps' →
          steps ≤ steps' → steps' ≤ maxRounds' →
          ∃ larger, Lattice.expandUntil farther maxRounds' = .ok larger ∧
            closure.indices.toList <+: larger.indices.toList) ∧
    (∀ rounds, 1 ≤ rounds → (Basis.grow rounds).frontier.size = 3 * rounds ∧
      (Basis.grow rounds).size = 1 + 3 * rounds * (rounds + 1) / 2) ∧
    ∀ (α : Type) [Scalar α] (params : Continuum.Params α) (model : Continuum.Model α),
      1 ≤ params.loopTimes → Continuum.Model.create params = .ok model →
        model.dimension = 2 + 3 * params.loopTimes * (params.loopTimes + 1) := by
  have hexpand : ∀ (target : LatticeIndex) (steps maxRounds : ℕ), target.HasNorm steps →
      steps ≤ maxRounds → Lattice.expandUntil target maxRounds =
        .ok ⟨(Lattice.Growth.shells steps).indices, steps⟩ := by
    intro target steps maxRounds hnorm hreach
    obtain ⟨rfl, hroom⟩ := hnorm.norm_eq
    exact Lattice.search_reached target maxRounds 0 (Nat.zero_le _) (by omega) hroom
  refine ⟨?_, ?_, ?_⟩
  · intro target steps maxRounds hnorm hreach
    refine ⟨_, hexpand target steps maxRounds hnorm hreach, Lattice.length_shells steps,
      fun k p hk hsteps ↦ Lattice.exists_norm_eq_iff hk hsteps, ?_⟩
    intro farther steps' maxRounds' hnorm' hsteps hreach'
    exact ⟨_, hexpand farther steps' maxRounds' hnorm' hreach', Lattice.shells_mono hsteps⟩
  · intro rounds hrounds
    have hsize := Basis.two_mul_size_grow rounds
    exact ⟨Basis.size_frontier hrounds, by omega⟩
  · intro α _ params model _ hcreate
    obtain ⟨-, rfl⟩ := Continuum.Model.create_eq_ok.mp hcreate
    exact Basis.two_mul_size_grow params.loopTimes

/-- The target `(1, 2)` of norm three, the farther one `(-4, 0)`, and a basis of one round. -/
theorem shell_sizes_three :
    ∃ closure larger, Lattice.expandUntil ⟨1, 2⟩ 5 = .ok closure ∧ closure.indices.size = 37 ∧
      (∃ cell, closure.indices[18]? = some cell ∧ cell.norm = 2) ∧
      Lattice.expandUntil ⟨-4, 0⟩ 4 = .ok larger ∧
      closure.indices.toList <+: larger.indices.toList ∧
      (Basis.grow 1).frontier.size = 3 ∧ (Basis.grow 1).size = 4 ∧
      ∃ model : Continuum.Model ℝ, Continuum.Model.create ⟨1, 1, 1, 1, 1, 1⟩ = .ok model ∧
        model.dimension = 8 := by
  have hthree : LatticeIndex.HasNorm ⟨1, 2⟩ 3 := ⟨rfl, rfl, rfl⟩
  have hfour : LatticeIndex.HasNorm ⟨-4, 0⟩ 4 := ⟨rfl, rfl, rfl⟩
  obtain ⟨hlattice, hbasis, hmodel⟩ := shell_sizes
  obtain ⟨closure, hclosure, hsize, hpositions, hprefix⟩ := hlattice ⟨1, 2⟩ 3 5 hthree (by decide)
  obtain ⟨larger, hlarger, hlist⟩ := hprefix ⟨-4, 0⟩ 4 4 hfour (by decide) (by decide)
  have hcreate : Continuum.Model.create (⟨1, 1, 1, 1, 1, 1⟩ : Continuum.Params ℝ) =
      .ok (Continuum.Model.ofParams ⟨1, 1, 1, 1, 1, 1⟩) :=
    Continuum.Model.create_eq_ok.mpr ⟨Continuum.validate_eq_ok.mpr (by norm_num), rfl⟩
  have hcell := (hpositions 2 18 (by decide) (by decide)).mpr (by decide)
  exact ⟨closure, larger, hclosure, hsize, hcell, hlarger, hlist, (hbasis 1 le_rfl).1,
    (hbasis 1 le_rfl).2, _, hcreate, hmodel ℝ _ _ le_rfl hcreate⟩

end Moire
