import Moire.PlaneWave.Basic
import Moire.Proofs.HexagonalNorm

/-!
# The number of tunnelling processes between plane waves

Tunnelling joins the plane waves of the two layers in a honeycomb: two bottom waves with a common
top partner are neighbours in the hexagonal lattice, and neighbours have a common partner.
`PlaneWave.distance` is the closed form of the number of processes from the origin. As for the
hexagonal norm, two facts make it a distance: `distance_le_of_partner`, a process changes it by at
most one, and `exists_inner_partner`, every other wave has a partner that is closer.
-/

namespace Moire

open LatticeIndex (norm_le_iff norm_le_of_neighbour mem_neighbours_iff exists_inner_neighbour)

/-- The numbers of the layers are different. -/
theorem Layer.tag_inj {side other : Layer} : side.tag = other.tag ↔ side = other := by
  cases side <;> cases other <;> decide

namespace PlaneWave

/-! ## The order of plane waves -/

/-- Plane waves are compared by layer, then by `m`, then by `n`. -/
theorem compare_eq (v w : PlaneWave) :
    compare v w =
      (compare v.layer.tag w.layer.tag).then ((compare v.m w.m).then (compare v.n w.n)) := rfl

/-- Only equal plane waves compare as equal. -/
instance : Std.LawfulEqOrd PlaneWave where
  compare_self := Std.ReflCmp.compare_self
  eq_of_compare := by
    intro v w h
    obtain ⟨layer, m, n⟩ := v
    simp only [compare_eq, Ordering.then_eq_eq, Std.compare_eq_iff_eq, Layer.tag_inj] at h
    obtain ⟨rfl, rfl, rfl⟩ := h
    rfl

/-- The order of plane waves, spelled out. -/
theorem compare_eq_lt_iff {v w : PlaneWave} :
    compare v w = .lt ↔
      v.layer.tag < w.layer.tag ∨
        v.layer = w.layer ∧ (v.m < w.m ∨ v.m = w.m ∧ v.n < w.n) := by
  simp only [compare_eq, Ordering.then_eq_lt, Std.compare_eq_iff_eq, Layer.tag_inj,
    Nat.compare_eq_lt, Int.compare_eq_lt]

/-! ## Partners -/

/-- The partners of a bottom wave. -/
theorem partners_bottom (m n : Int) :
    partners ⟨.bottom, m, n⟩ = [⟨.top, m, n⟩, ⟨.top, m + 1, n⟩, ⟨.top, m, n + 1⟩] := rfl

/-- The partners of a top wave. -/
theorem partners_top (m n : Int) :
    partners ⟨.top, m, n⟩ = [⟨.bottom, m, n⟩, ⟨.bottom, m - 1, n⟩, ⟨.bottom, m, n - 1⟩] := rfl

/-- Partners are in different layers. -/
theorem layer_of_partner {v p : PlaneWave} (h : p ∈ v.partners) : p.layer = v.layer.other := by
  obtain ⟨layer, m, n⟩ := v
  simp only [partners, List.mem_cons, List.not_mem_nil, or_false] at h
  rcases h with rfl | rfl | rfl <;> rfl

/-- A process can be undone. -/
theorem partners_symm {v p : PlaneWave} (h : p ∈ v.partners) : v ∈ p.partners := by
  obtain ⟨layer, m, n⟩ := v
  cases layer with
  | bottom =>
      simp only [partners_bottom, List.mem_cons, List.not_mem_nil, or_false] at h
      rcases h with rfl | rfl | rfl <;> simp [partners_top]
  | top =>
      simp only [partners_top, List.mem_cons, List.not_mem_nil, or_false] at h
      rcases h with rfl | rfl | rfl <;> simp [partners_bottom]

/-- Neighbours in the hexagonal lattice have a common partner. -/
theorem exists_common_partner {index other : LatticeIndex} (h : other ∈ index.neighbours) :
    ∃ p, p ∈ partners ⟨.bottom, index.i, index.j⟩ ∧ p ∈ partners ⟨.bottom, other.i, other.j⟩ := by
  obtain ⟨i, j⟩ := index
  simp only [partners_bottom]
  rcases mem_neighbours_iff.mp h with rfl | rfl | rfl | rfl | rfl | rfl
  · exact ⟨⟨.top, i + 1, j⟩, by simp, by simp⟩
  · exact ⟨⟨.top, i, j + 1⟩, by simp, by simp⟩
  · exact ⟨⟨.top, i, j⟩, by simp, by simp⟩
  · exact ⟨⟨.top, i, j⟩, by simp, by simp⟩
  · exact ⟨⟨.top, i + 1, j⟩, by simp, by simp⟩
  · exact ⟨⟨.top, i, j + 1⟩, by simp, by simp⟩

/-- The bottom partners of a top wave are neighbours in the hexagonal lattice. -/
theorem neighbour_of_common_partner {m n : Int} {p q : PlaneWave}
    (hp : p ∈ partners ⟨.top, m, n⟩) (hq : q ∈ partners ⟨.top, m, n⟩) :
    p = q ∨ ⟨p.m, p.n⟩ ∈ LatticeIndex.neighbours ⟨q.m, q.n⟩ := by
  simp only [partners_top, List.mem_cons, List.not_mem_nil, or_false] at hp hq
  rcases hp with rfl | rfl | rfl <;> rcases hq with rfl | rfl | rfl <;>
    simp [mem_neighbours_iff]

/-! ## The distance -/

/-- The number of tunnelling processes from the origin. A top wave is one process away from the
nearest of its three partners. -/
def distance (wave : PlaneWave) : Nat :=
  match wave.layer with
  | .bottom => 2 * LatticeIndex.norm ⟨wave.m, wave.n⟩
  | .top =>
      2 * min (LatticeIndex.norm ⟨wave.m, wave.n⟩)
        (min (LatticeIndex.norm ⟨wave.m - 1, wave.n⟩) (LatticeIndex.norm ⟨wave.m, wave.n - 1⟩)) + 1

/-- The distance of a bottom wave. -/
theorem distance_bottom (m n : Int) :
    distance ⟨.bottom, m, n⟩ = 2 * LatticeIndex.norm ⟨m, n⟩ := rfl

/-- The distance of a top wave. -/
theorem distance_top (m n : Int) :
    distance ⟨.top, m, n⟩ =
      2 * min (LatticeIndex.norm ⟨m, n⟩)
        (min (LatticeIndex.norm ⟨m - 1, n⟩) (LatticeIndex.norm ⟨m, n - 1⟩)) + 1 := rfl

/-- Bottom waves are an even number of processes away and top waves an odd number. -/
theorem distance_mod_two (wave : PlaneWave) :
    wave.layer = if wave.distance % 2 = 0 then .bottom else .top := by
  obtain ⟨layer, m, n⟩ := wave
  cases layer <;> simp [distance_bottom, distance_top, Nat.add_mod]

/-- Only the origin is no process away. -/
theorem distance_eq_zero_iff {wave : PlaneWave} : wave.distance = 0 ↔ wave = origin := by
  obtain ⟨layer, m, n⟩ := wave
  cases layer with
  | bottom =>
      have hnorm := LatticeIndex.norm_eq_zero_iff ⟨m, n⟩
      simp only [LatticeIndex.origin, LatticeIndex.mk.injEq] at hnorm
      simp only [distance_bottom, origin, mk.injEq, true_and, ← hnorm]
      omega
  | top => simp [distance_top, origin]

/-- A top wave is at most one process away from any of its partners. -/
theorem distance_top_le {m n : Int} {p : PlaneWave} (h : p ∈ partners ⟨.top, m, n⟩) :
    distance ⟨.top, m, n⟩ ≤ p.distance + 1 := by
  simp only [partners_top, List.mem_cons, List.not_mem_nil, or_false] at h
  rcases h with rfl | rfl | rfl <;> simp only [distance_top, distance_bottom] <;> omega

/-- One of the partners of a top wave is closer. -/
theorem exists_distance_top (m n : Int) :
    ∃ p ∈ partners ⟨.top, m, n⟩, distance ⟨.top, m, n⟩ = p.distance + 1 := by
  simp only [partners_top, List.mem_cons, List.not_mem_nil, or_false, exists_eq_or_imp,
    exists_eq_left, distance_top, distance_bottom]
  omega

/-- A process changes the distance by at most one. -/
theorem distance_le_of_partner {v p : PlaneWave} (h : p ∈ v.partners) :
    p.distance ≤ v.distance + 1 := by
  obtain ⟨layer, m, n⟩ := v
  cases layer with
  | bottom =>
      have hlayer := layer_of_partner h
      have hback := partners_symm h
      obtain ⟨_, k, l⟩ := p
      subst hlayer
      exact distance_top_le hback
  | top =>
      obtain ⟨q, hq, hdistance⟩ := exists_distance_top m n
      rw [hdistance]
      rcases neighbour_of_common_partner h hq with rfl | hneighbour
      · omega
      · have hnorm := norm_le_of_neighbour hneighbour
        obtain ⟨_, k, l⟩ := p
        obtain ⟨_, i, j⟩ := q
        cases layer_of_partner h
        cases layer_of_partner hq
        simp only [distance_bottom] at hnorm ⊢
        omega

/-- Every wave off the origin has a partner one process closer. -/
theorem exists_inner_partner {v : PlaneWave} {bound : Nat} (h : v.distance = bound + 1) :
    ∃ p ∈ v.partners, p.distance = bound := by
  obtain ⟨layer, m, n⟩ := v
  cases layer with
  | bottom =>
      have hnorm : LatticeIndex.norm ⟨m, n⟩ = (bound - 1) / 2 + 1 := by
        rw [distance_bottom] at h
        omega
      obtain ⟨⟨i, j⟩, hinner, hneighbour⟩ := exists_inner_neighbour hnorm
      obtain ⟨p, hp, hv⟩ := exists_common_partner hneighbour
      have hge := distance_le_of_partner (partners_symm hv)
      have hle := distance_le_of_partner hp
      simp only [distance_bottom] at h hle hge
      exact ⟨p, hv, by omega⟩
  | top =>
      obtain ⟨p, hp, hdistance⟩ := exists_distance_top m n
      exact ⟨p, hp, by omega⟩

/-- Within `2³² - 3` processes from the origin no partner leaves its words. -/
theorem partners32_eq_ok {v : PlaneWave} (h : v.distance < 4294967294) :
    v.partners32 = .ok v.partners := by
  obtain ⟨layer, m, n⟩ := v
  cases layer with
  | bottom =>
      have hnorm : LatticeIndex.norm ⟨m, n⟩ ≤ 2147483646 := by
        rw [distance_bottom] at h
        omega
      rw [norm_le_iff] at hnorm
      have hm := Word.signed32_add (x := m) (y := 1) (by omega) (by omega)
      have hn := Word.signed32_add (x := n) (y := 1) (by omega) (by omega)
      simp [partners32, hm, hn, bind, Except.bind, pure, Except.pure, partners_bottom, Layer.other]
  | top =>
      have hnorm : LatticeIndex.norm ⟨m, n⟩ ≤ 2147483646 ∨
          LatticeIndex.norm ⟨m - 1, n⟩ ≤ 2147483646 ∨
          LatticeIndex.norm ⟨m, n - 1⟩ ≤ 2147483646 := by
        rw [distance_top] at h
        omega
      simp only [norm_le_iff] at hnorm
      have hm := Word.signed32_sub (x := m) (y := 1) (by omega) (by omega)
      have hn := Word.signed32_sub (x := n) (y := 1) (by omega) (by omega)
      simp [partners32, hm, hn, bind, Except.bind, pure, Except.pure, partners_top, Layer.other]

end PlaneWave

end Moire
