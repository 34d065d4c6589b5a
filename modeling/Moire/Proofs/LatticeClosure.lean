import Moire.Proofs.HexagonalNorm

/-!
# The closure of a lattice is a hexagon

The growth of a lattice visits cells round by round. As long as coordinates fit their words a round
is `Growth.spread`, a plain scan of the neighbours of the last round, and `Growth.shells` iterates
it. The invariant `Growth.Shelled` says that after `radius` rounds the visited cells are those of
norm at most `radius` and the last round found those of norm `radius`. Read `Shelled.spread` first:
it is the step of the induction. `search_shells` then follows the search through its rounds.
-/

namespace Moire.Lattice

open LatticeIndex (origin neighbours steps)

/-- A monadic fold whose every step succeeds is a plain fold. -/
theorem foldlM_eq_ok {σ β : Type} {f : σ → β → Outcome σ} {g : σ → β → σ} (items : List β)
    (state : σ) (h : ∀ state, ∀ item ∈ items, f state item = .ok (g state item)) :
    items.foldlM f state = .ok (items.foldl g state) := by
  induction items generalizing state with
  | nil => rfl
  | cons item items ih =>
      rw [List.foldlM_cons, h state item List.mem_cons_self]
      exact ih (g state item) fun state other hother ↦ h state other (List.mem_cons_of_mem _ hother)

/-- What every step preserves, a scan preserves. -/
theorem foldlM_preserves {σ β : Type} {f : σ → β → Outcome σ} {P : σ → Prop}
    (hstep : ∀ state item next, P state → f state item = .ok next → P next) (items : List β)
    {state final : σ} (hstate : P state) (hfold : items.foldlM f state = .ok final) : P final := by
  induction items generalizing state with
  | nil =>
      cases hfold
      exact hstate
  | cons item items ih =>
      obtain ⟨next, hnext, hrest⟩ := bind_eq_ok.mp hfold
      exact ih (hstep state item next hstate hnext) hrest

namespace Growth

/-- Keep a cell if it is new. -/
def keep (growth : Growth) (cell : LatticeIndex) : Growth :=
  if growth.visited.contains cell then growth
  else { growth with
    visited := growth.visited.insert cell
    indices := growth.indices.push cell
    frontier := cell :: growth.frontier }

/-- A round of growth on unbounded coordinates. -/
def spread (growth : Growth) : Growth :=
  (growth.frontier.reverse.flatMap neighbours).foldl keep
    { growth with frontier := [], rounds := growth.rounds + 1 }

/-- The growth after a number of rounds on unbounded coordinates. -/
def shells : Nat → Growth
  | 0 => seed
  | radius + 1 => (shells radius).spread

/-- Looking in a direction keeps the neighbour there, as long as it fits its word. -/
theorem look_eq_ok {index : LatticeIndex} {growth : Growth} {direction : Int × Int}
    (hnorm : index.norm < 2147483647) (hdirection : direction ∈ steps) :
    look index growth direction =
      .ok (growth.keep ⟨index.i + direction.1, index.j + direction.2⟩) := by
  simp only [look, LatticeIndex.step_eq_ok hnorm hdirection, bind, Except.bind, keep]
  split <;> rfl

/-- A round is `spread` as long as the cells of the last round are away from the ends of their
words. -/
theorem round_eq_ok {growth : Growth} (hroom : ∀ cell ∈ growth.frontier, cell.norm < 2147483647) :
    growth.round = .ok growth.spread := by
  have hcell : ∀ state, ∀ cell ∈ growth.frontier.reverse,
      steps.foldlM (look cell) state = .ok (cell.neighbours.foldl keep state) := by
    intro state cell hcell
    have hnorm := hroom cell (List.mem_reverse.mp hcell)
    rw [neighbours, List.foldl_map]
    exact foldlM_eq_ok _ _ fun state direction hdirection ↦ look_eq_ok hnorm hdirection
  rw [round, foldlM_eq_ok _ _ hcell, spread, List.foldl_flatMap]

/-- The visited cells are those on the list, and the list has no cell twice. -/
structure Consistent (growth : Growth) : Prop where
  visited : ∀ cell, growth.visited.contains cell = true ↔ cell ∈ growth.indices.toList
  nodup : growth.indices.toList.Nodup

/-- A known cell changes nothing. -/
theorem Consistent.keep_known {growth : Growth} (h : growth.Consistent) {cell : LatticeIndex}
    (hknown : cell ∈ growth.indices.toList) : growth.keep cell = growth := by
  rw [Growth.keep, if_pos ((h.visited cell).mpr hknown)]

/-- A new cell goes to the end of the list and to the front of the frontier. -/
theorem Consistent.keep_new {growth : Growth} (h : growth.Consistent) {cell : LatticeIndex}
    (hnew : cell ∉ growth.indices.toList) :
    growth.keep cell = { growth with
      visited := growth.visited.insert cell
      indices := growth.indices.push cell
      frontier := cell :: growth.frontier } := by
  rw [Growth.keep, if_neg (mt (h.visited cell).mp hnew)]

/-- Looking at a cell keeps the list and the visited cells together. -/
theorem Consistent.keep {growth : Growth} (h : growth.Consistent) (cell : LatticeIndex) :
    (growth.keep cell).Consistent := by
  by_cases hknown : cell ∈ growth.indices.toList
  · rw [h.keep_known hknown]
    exact h
  · rw [h.keep_new hknown]
    refine ⟨fun other ↦ ?_, ?_⟩
    · simp only [Std.HashSet.contains_insert, Bool.or_eq_true, beq_iff_eq, h.visited other,
        Array.toList_push, List.mem_append, List.mem_singleton]
      exact ⟨fun hother ↦ hother.symm.imp_right Eq.symm, fun hother ↦ hother.symm.imp_left Eq.symm⟩
    · rw [Array.toList_push, List.nodup_append]
      refine ⟨h.nodup, by simp, fun a ha b hb hab ↦ hknown ?_⟩
      rwa [← List.mem_singleton.mp hb, ← hab]

/-- Looking at a neighbour keeps the list and the visited cells together. -/
theorem Consistent.look {growth next : Growth} {index : LatticeIndex} {direction : Int × Int}
    (h : growth.Consistent) (hlook : look index growth direction = .ok next) : next.Consistent := by
  obtain ⟨candidate, -, hnext⟩ := bind_eq_ok.mp hlook
  have hkeep : next = growth.keep candidate := by
    unfold Growth.keep
    split at hnext <;> cases hnext
    next hknown => rw [if_pos hknown]
    next hnew => rw [if_neg hnew]
  rw [hkeep]
  exact h.keep candidate

/-- A round keeps the list and the visited cells together. -/
theorem Consistent.round {growth next : Growth} (h : growth.Consistent)
    (hround : growth.round = .ok next) : next.Consistent := by
  have hstart : { growth with frontier := [], rounds := growth.rounds + 1 }.Consistent :=
    ⟨h.visited, h.nodup⟩
  refine foldlM_preserves (fun state index after hstate hafter ↦ ?_) _ hstart hround
  exact foldlM_preserves (fun _ _ _ ↦ Consistent.look) LatticeIndex.steps hstate hafter

/-- A scan appends the new ones among the scanned cells and nothing else. -/
theorem foldl_keep (cells : List LatticeIndex) {growth : Growth} (h : growth.Consistent) :
    ∃ found : List LatticeIndex,
      (cells.foldl keep growth).indices.toList = growth.indices.toList ++ found ∧
      (cells.foldl keep growth).frontier = found.reverse ++ growth.frontier ∧
      (cells.foldl keep growth).rounds = growth.rounds ∧
      (cells.foldl keep growth).Consistent ∧
      ∀ cell, cell ∈ found ↔ cell ∈ cells ∧ cell ∉ growth.indices.toList := by
  induction cells generalizing growth with
  | nil => exact ⟨[], by simp, by simp, rfl, h, by simp⟩
  | cons first cells ih =>
      obtain ⟨found, hindices, hfrontier, hrounds, hconsistent, hfound⟩ := ih (h.keep first)
      rw [List.foldl_cons]
      by_cases hknown : first ∈ growth.indices.toList
      · rw [h.keep_known hknown] at hindices hfrontier hrounds hconsistent hfound ⊢
        refine ⟨found, hindices, hfrontier, hrounds, hconsistent, fun cell ↦ ?_⟩
        rw [hfound, List.mem_cons]
        constructor
        · exact fun hcell ↦ ⟨Or.inr hcell.1, hcell.2⟩
        · rintro ⟨rfl | hcell, hnew⟩
          · exact absurd hknown hnew
          · exact ⟨hcell, hnew⟩
      · rw [h.keep_new hknown] at hindices hfrontier hrounds hconsistent hfound ⊢
        refine ⟨first :: found, by simp [hindices], by simp [hfrontier], hrounds, hconsistent,
          fun cell ↦ ?_⟩
        rw [List.mem_cons, hfound, Array.toList_push, List.mem_cons, List.mem_append,
          List.mem_singleton]
        constructor
        · rintro (rfl | ⟨hcell, hnew⟩)
          · exact ⟨Or.inl rfl, hknown⟩
          · exact ⟨Or.inr hcell, fun hmem ↦ hnew (Or.inl hmem)⟩
        · rintro ⟨rfl | hcell, hnew⟩
          · exact Or.inl rfl
          · by_cases heq : cell = first
            · exact Or.inl heq
            · exact Or.inr ⟨hcell, fun hmem ↦ hmem.elim hnew heq⟩

/-- The growth is a hexagon of a given radius: the list has the cells of the hexagon from the
inside out, and the last round found its rim. -/
structure Shelled (growth : Growth) (radius : Nat) : Prop where
  rounds : growth.rounds = radius
  consistent : growth.Consistent
  mem_indices : ∀ cell, cell ∈ growth.indices.toList ↔ cell.norm ≤ radius
  mem_frontier : ∀ cell, cell ∈ growth.frontier ↔ cell.norm = radius
  ordered : growth.indices.toList.Pairwise fun a b ↦ a.norm ≤ b.norm
  head : growth.indices.toList.head? = some origin

/-- Before its first round the growth is the origin alone. -/
theorem seed_shelled : seed.Shelled 0 where
  rounds := rfl
  consistent := ⟨fun cell ↦ by simpa [seed] using eq_comm, by simp [seed]⟩
  mem_indices cell := by simp [seed, LatticeIndex.norm_eq_zero_iff]
  mem_frontier cell := by simp [seed, LatticeIndex.norm_eq_zero_iff]
  ordered := by simp [seed]
  head := rfl

/-- The unvisited neighbours of the rim are the rim of the next hexagon. -/
theorem Shelled.next_rim {growth : Growth} {radius : Nat} (h : growth.Shelled radius)
    (cell : LatticeIndex) :
    cell ∈ growth.frontier.reverse.flatMap neighbours ∧ cell ∉ growth.indices.toList ↔
      cell.norm = radius + 1 := by
  simp only [List.mem_flatMap, List.mem_reverse, h.mem_frontier, h.mem_indices]
  constructor
  · rintro ⟨⟨inner, hinner, hmem⟩, hout⟩
    have hle := LatticeIndex.norm_le_of_neighbour hmem
    omega
  · intro hcell
    exact ⟨LatticeIndex.exists_inner_neighbour hcell, by omega⟩

/-- A round takes the hexagon to the next one. -/
theorem Shelled.spread {growth : Growth} {radius : Nat} (h : growth.Shelled radius) :
    growth.spread.Shelled (radius + 1) := by
  have hstart : Consistent { growth with frontier := [], rounds := growth.rounds + 1 } :=
    ⟨h.consistent.visited, h.consistent.nodup⟩
  obtain ⟨found, hindices, hfrontier, hrounds, hconsistent, hfound⟩ :=
    foldl_keep (growth.frontier.reverse.flatMap neighbours) hstart
  have hrim : ∀ cell, cell ∈ found ↔ cell.norm = radius + 1 := fun cell ↦
    (hfound cell).trans (h.next_rim cell)
  refine ⟨hrounds.trans (by rw [h.rounds]), hconsistent, fun cell ↦ ?_, fun cell ↦ ?_, ?_, ?_⟩
  · rw [Growth.spread, hindices, List.mem_append, h.mem_indices, hrim]
    omega
  · rw [Growth.spread, hfrontier, List.append_nil, List.mem_reverse, hrim]
  · rw [Growth.spread, hindices, List.pairwise_append]
    refine ⟨h.ordered, List.pairwise_of_forall_mem_list ?_, ?_⟩
    · intro a ha b hb
      exact Nat.le_of_eq (((hrim a).mp ha).trans ((hrim b).mp hb).symm)
    · intro a ha b hb
      have hinside := (h.mem_indices a).mp ha
      have hoff := (hrim b).mp hb
      omega
  · rw [Growth.spread, hindices, List.head?_append, h.head, Option.some_or]

/-- After every number of rounds the growth is the hexagon of that radius. -/
theorem shells_shelled (radius : Nat) : (shells radius).Shelled radius := by
  induction radius with
  | zero => exact seed_shelled
  | succ radius ih => exact ih.spread

/-- The growth of a given radius has visited the cells of its hexagon. -/
theorem shells_visited (radius : Nat) (cell : LatticeIndex) :
    (shells radius).visited.contains cell = true ↔ cell.norm ≤ radius :=
  ((shells_shelled radius).consistent.visited cell).trans ((shells_shelled radius).mem_indices cell)

/-- No round within the range of coordinates leaves a word. -/
theorem shells_round {radius : Nat} (hradius : radius < 2147483647) :
    (shells radius).round = .ok (shells (radius + 1)) :=
  round_eq_ok fun cell hcell ↦ by rwa [((shells_shelled radius).mem_frontier cell).mp hcell]

end Growth

open Growth (shells shells_shelled shells_visited shells_round)

/-- A search stops on the hexagon whose rim holds its target. -/
theorem search_found (target : LatticeIndex) (left : Nat) :
    search target left (shells target.norm) =
      .ok ⟨(shells target.norm).indices, target.norm⟩ := by
  have hvisited := (shells_visited target.norm target).mpr (Nat.le_refl _)
  cases left <;> rw [search, if_pos hvisited, (shells_shelled target.norm).rounds]

/-- A hexagon inside a target does not hold it. -/
theorem not_visited_of_lt {target : LatticeIndex} {radius : Nat} (hinside : radius < target.norm) :
    ¬ (shells radius).visited.contains target = true := by
  rw [shells_visited]
  omega

/-- A search on a hexagon inside its target goes on with the next hexagon. -/
theorem search_succ {target : LatticeIndex} {radius : Nat} (left : Nat)
    (hinside : radius < target.norm) (hroom : radius < 2147483647) :
    search target (left + 1) (shells radius) = search target left (shells (radius + 1)) := by
  rw [search, if_neg (not_visited_of_lt hinside), shells_round hroom]
  rfl

/-- A search that starts on a hexagon inside its target stops on the hexagon whose rim holds the
target, or fails when the rounds do not lead there. -/
theorem search_shells (target : LatticeIndex) (left radius : Nat) (hinside : radius ≤ target.norm)
    (hroom : radius + left ≤ 2147483647) :
    search target left (shells radius) =
      if target.norm ≤ radius + left then .ok ⟨(shells target.norm).indices, target.norm⟩
      else fail (.unreached target.i target.j (radius + left)) := by
  induction left generalizing radius with
  | zero =>
      rcases Nat.eq_or_lt_of_le hinside with rfl | hinside
      · rw [search_found, if_pos (by omega)]
      · rw [search, if_neg (not_visited_of_lt hinside), if_neg (by omega),
          (shells_shelled radius).rounds, Nat.add_zero]
  | succ left ih =>
      rcases Nat.eq_or_lt_of_le hinside with rfl | hinside
      · rw [search_found, if_pos (by omega)]
      · have hrest := ih (radius + 1) hinside (by omega)
        rw [show radius + 1 + left = radius + (left + 1) by omega] at hrest
        rw [search_succ left hinside (by omega)]
        exact hrest

/-- A search whose target its rounds lead to stops on the hexagon whose rim holds the target, even
if more rounds are allowed than there are coordinates. -/
theorem search_reached (target : LatticeIndex) (left radius : Nat) (hinside : radius ≤ target.norm)
    (hreach : target.norm ≤ radius + left) (hroom : target.norm ≤ 2147483647) :
    search target left (shells radius) = .ok ⟨(shells target.norm).indices, target.norm⟩ := by
  induction left generalizing radius with
  | zero =>
      have hradius : radius = target.norm := by omega
      rw [hradius, search_found]
  | succ left ih =>
      rcases Nat.eq_or_lt_of_le hinside with rfl | hinside
      · rw [search_found]
      · rw [search_succ left hinside (by omega)]
        exact ih (radius + 1) hinside (by omega)

/-- A search that succeeds lists no cell twice. -/
theorem search_nodup {target : LatticeIndex} {left : Nat} {growth : Growth} {closure : Closure}
    (h : growth.Consistent) (hsearch : search target left growth = .ok closure) :
    closure.indices.toList.Nodup := by
  induction left generalizing growth with
  | zero =>
      unfold search at hsearch
      split at hsearch <;> cases hsearch
      exact h.nodup
  | succ left ih =>
      unfold search at hsearch
      split at hsearch
      · cases hsearch
        exact h.nodup
      · obtain ⟨next, hnext, hrest⟩ := bind_eq_ok.mp hsearch
        exact ih (h.round hnext) hrest

/-- A closure lists no cell twice. -/
theorem expandUntil_nodup {target : LatticeIndex} {maxRounds : Nat} {closure : Closure}
    (h : expandUntil target maxRounds = .ok closure) : closure.indices.toList.Nodup :=
  search_nodup Growth.seed_shelled.consistent h

/-- The closure of a target within the rounds has the cells of the hexagon, each once. -/
theorem exists_hexagon {target : LatticeIndex} {maxRounds : Nat} (hreach : target.norm ≤ maxRounds)
    (hroom : target.norm ≤ 2147483647) :
    ∃ closure, expandUntil target maxRounds = .ok closure ∧ closure.indices.toList.Nodup ∧
      ∀ cell, cell ∈ closure.indices.toList ↔ cell.norm ≤ target.norm := by
  have hshelled := shells_shelled target.norm
  refine ⟨_, search_reached target maxRounds 0 (Nat.zero_le _) (by omega) hroom,
    hshelled.consistent.nodup, hshelled.mem_indices⟩

/-- The cell that short labels describe, whose coordinates fit their words. -/
theorem commensurateTarget_eq_ok {m0 r : Nat} (h : 2 * m0 + r ≤ 2147483647) :
    commensurateTarget m0 r = .ok ⟨m0, m0 + r⟩ := by
  have hsum : Word.unsigned32.add m0 r = .ok ((m0 : Int) + r) :=
    Word.check_eq_ok .add (by dsimp only [Word.unsigned32]; omega)
      (by dsimp only [Word.unsigned32]; omega)
  have hwrap : ∀ n : Nat, n ≤ 2147483647 → wrapSigned 32 n = n := by
    intro n hn
    show Int.bmod n 4294967296 = n
    exact Int.bmod_eq_of_le (by omega) (by omega)
  unfold commensurateTarget
  rw [hsum]
  show Except.ok (LatticeIndex.mk (wrapSigned 32 m0) (wrapSigned 32 ((m0 : Int) + r).toNat)) = _
  rw [hwrap m0 (by omega), hwrap _ (by omega), Int.toNat_of_nonneg (by omega)]

/-- The closure of a target is the hexagon whose rim holds it, listed from the inside out, and a
target beyond the allowed rounds is reported with its coordinates. With at most `2³¹ - 1` rounds
neither outcome is a fault. -/
theorem expand_until_exact (target : LatticeIndex) (maxRounds : Nat)
    (hrounds : maxRounds ≤ 2147483647) :
    (target.norm ≤ maxRounds → ∃ closure, expandUntil target maxRounds = .ok closure ∧
      closure.rounds = target.norm ∧
      (∀ cell, cell ∈ closure.indices.toList ↔ cell.norm ≤ target.norm) ∧
      closure.indices.toList.Nodup ∧
      closure.indices.toList.head? = some origin ∧
      closure.indices.toList.Pairwise (fun a b ↦ a.norm ≤ b.norm)) ∧
    (¬ target.norm ≤ maxRounds →
      expandUntil target maxRounds = fail (.unreached target.i target.j maxRounds)) ∧
    ∀ fault, expandUntil target maxRounds ≠ breakDown fault := by
  have hsearch := search_shells target maxRounds 0 (Nat.zero_le _) (by omega)
  rw [Nat.zero_add] at hsearch
  by_cases hreached : target.norm ≤ maxRounds
  · have hclosure : expandUntil target maxRounds =
        .ok ⟨(shells target.norm).indices, target.norm⟩ := hsearch.trans (if_pos hreached)
    have hshelled := shells_shelled target.norm
    refine ⟨fun _ ↦ ⟨_, hclosure, rfl, hshelled.mem_indices, hshelled.consistent.nodup,
      hshelled.head, hshelled.ordered⟩, fun hfar ↦ absurd hreached hfar, fun fault ↦ ?_⟩
    simp [hclosure, breakDown]
  · have hunreached : expandUntil target maxRounds =
        fail (.unreached target.i target.j maxRounds) := hsearch.trans (if_neg hreached)
    refine ⟨fun hnear ↦ absurd hnear hreached, fun _ ↦ hunreached, fun fault ↦ ?_⟩
    simp [hunreached, fail, breakDown]

/-- The cell `(1, 2)` has norm three: three rounds reach it and two do not. -/
theorem expand_until_exact_three :
    3 ≤ 2147483647 ∧ LatticeIndex.norm ⟨1, 2⟩ = 3 ∧
    (∃ closure, expandUntil ⟨1, 2⟩ 3 = .ok closure ∧ closure.rounds = 3 ∧
      ∀ cell, cell ∈ closure.indices.toList ↔ cell.norm ≤ 3) ∧
    expandUntil ⟨1, 2⟩ 2 = fail (.unreached 1 2 2) := by
  have hthree := (expand_until_exact ⟨1, 2⟩ 3 (by decide)).1 (by decide)
  obtain ⟨closure, hclosure, hrounds, hcells, _⟩ := hthree
  exact ⟨by decide, by decide, ⟨closure, hclosure, hrounds, hcells⟩,
    (expand_until_exact ⟨1, 2⟩ 2 (by decide)).2.1 (by decide)⟩

end Moire.Lattice
