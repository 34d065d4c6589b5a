import Mathlib.Data.List.ProdSigma
import Moire.Proofs.ZonePeriodicity

/-!
# The pairs of atoms and the table of their entries

The hoppings of all pairs stand in one list, written row by row. A walk over the pairs `i < j` of a
square table takes them from that list one after another and writes each entry with its conjugate
across the diagonal. The two orders are the same (`toList_pairHoppings_eq_map`), so the walk never
runs out of hoppings and never gets out of step. `hamiltonian_pair_table` says that the Hamiltonian
is the table that the walk leaves, with the hopping of each pair at its own entries.
-/

namespace Moire

namespace TightBinding

/-! ## The order of the pairs -/

/-- The places above the diagonal of a square table, in the order of a walk over all of it. -/
def pairs (n : ℕ) : List (ℕ × ℕ) :=
  (List.range n ×ˢ List.range n).filter fun pair ↦ pair.1 < pair.2

/-- The pairs are those of two different atoms, the first one before the second. -/
theorem mem_pairs {n i j : ℕ} : (i, j) ∈ pairs n ↔ i < j ∧ j < n := by
  simp only [pairs, List.mem_filter, List.mem_product, List.mem_range, decide_eq_true_eq]
  omega

/-- No pair stands twice in the list. -/
theorem nodup_pairs (n : ℕ) : (pairs n).Nodup :=
  (List.nodup_range.product List.nodup_range).filter _

/-- The places in one row. -/
def pairRow (n i : ℕ) : List (ℕ × ℕ) :=
  (List.range (n - (i + 1))).map fun t ↦ (i, i + 1 + t)

/-- An atom is paired with each one after it. -/
theorem length_pairRow (n i : ℕ) : (pairRow n i).length = n - (i + 1) := by
  simp [pairRow]

/-- The filter leaves of each row what is to the right of the diagonal. -/
theorem pairs_eq_flatMap (n : ℕ) : pairs n = (List.range n).flatMap (pairRow n) := by
  have hrows : List.range n ×ˢ List.range n =
      (List.range n).flatMap fun i ↦ (List.range n).map (Prod.mk i) := rfl
  rw [pairs, hrows, List.filter_flatMap]
  refine List.flatMap_congr fun i hi ↦ ?_
  obtain ⟨k, rfl⟩ := Nat.exists_eq_add_of_lt (List.mem_range.mp hi)
  have hleft : (List.range (i + 1)).filter (fun j ↦ decide (i < j)) = [] :=
    List.filter_eq_nil_iff.mpr fun j hj ↦ by simpa using Nat.lt_succ_iff.mp (List.mem_range.mp hj)
  have hright : ((List.range k).map (i + 1 + ·)).filter (fun j ↦ decide (i < j)) =
      (List.range k).map (i + 1 + ·) :=
    List.filter_eq_self.mpr fun j hj ↦ by
      obtain ⟨t, -, rfl⟩ := List.mem_map.mp hj
      exact decide_eq_true (by omega)
  rw [List.filter_map, show i + k + 1 = i + 1 + k by omega, List.range_add, Function.comp_def,
    List.filter_append, hleft, hright, List.nil_append, List.map_map, pairRow,
    Nat.add_sub_cancel_left]
  rfl

/-- The pair `i < j` stands at its place of the walk. -/
theorem pairs_getElem?_pairIndex {n i j : ℕ} (hij : i < j) (hj : j < n) :
    (pairs n)[pairIndex n i j]? = some (i, j) := by
  have ht : j - i - 1 < n - (i + 1) := by omega
  rw [pairs_eq_flatMap, rows_getElem? (fun k _ ↦ length_pairRow n k) hij hj, pairRow,
    List.getElem?_map, List.getElem?_range ht, Option.map_some,
    show i + 1 + (j - i - 1) = j by omega]

/-- There are as many pairs as two atoms can be chosen. -/
theorem length_pairs (n : ℕ) : (pairs n).length = n * (n - 1) / 2 := by
  rw [pairs_eq_flatMap, length_rows (fun k _ ↦ length_pairRow n k) le_rfl,
    show 2 * n - n - 1 = n - 1 by omega]

variable {α : Type} [Scalar α]

/-- The hopping of a pair of atoms. -/
def pairHopping (params : Params α) (cell : Supercell α) (atoms : Array (Vec3 α)) (i j : ℕ) :
    Hopping α :=
  hoppingAlong params
    (shortestImage cell.translations (atoms.getD j ⟨0, 0, 0⟩ - atoms.getD i ⟨0, 0, 0⟩))

/-- The hoppings are listed in the order in which the walk comes to their pairs. -/
theorem toList_pairHoppings_eq_map (params : Params α) (cell : Supercell α)
    (atoms : Array (Vec3 α)) : (pairHoppings params cell atoms).toList =
      (pairs atoms.size).map fun pair ↦ pairHopping params cell atoms pair.1 pair.2 := by
  have hrow : ∀ i, hoppingRow params cell atoms i =
      (pairRow atoms.size i).map fun pair ↦ pairHopping params cell atoms pair.1 pair.2 := by
    intro i
    apply List.ext_getElem
    · rw [length_hoppingRow, List.length_map, length_pairRow]
    · intro t ht _
      rw [length_hoppingRow] at ht
      have hlt : i + 1 + t < atoms.size := by omega
      simp [hoppingRow, pairRow, pairHopping, hlt]
  rw [toList_pairHoppings, pairs_eq_flatMap, List.map_flatMap]
  exact List.flatMap_congr fun i _ ↦ hrow i

/-! ## The walk -/

/-- The entry that a hopping contributes at a wave vector. -/
def Hopping.entry (hopping : Hopping α) (k : KPoint α) : Cplx α :=
  Cplx.polar hopping.amplitude (-k.dot hopping.displacement)

/-- Write an entry, then its conjugate across the diagonal. -/
def setPair (table : ℕ → ℕ → Cplx α) (i j : ℕ) (z : Cplx α) : ℕ → ℕ → Cplx α := fun p q ↦
  if p = j ∧ q = i then z.conj else if p = i ∧ q = j then z else table p q

/-- Go through the places with the hoppings at hand. A place for which none is left keeps what it
holds. -/
def writePairs (k : KPoint α) : List (ℕ × ℕ) → List (Hopping α) → (ℕ → ℕ → Cplx α) →
    ℕ → ℕ → Cplx α
  | (i, j) :: places, hopping :: hoppings, table =>
      writePairs k places hoppings (setPair table i j (hopping.entry k))
  | _, _, table => table

section

variable {table : ℕ → ℕ → Cplx α} {p q : ℕ}

/-- A write leaves all other places alone. -/
theorem setPair_of_ne {i j : ℕ} (z : Cplx α) (hpair : (i, j) ≠ (p, q)) (hacross : (i, j) ≠ (q, p)) :
    setPair table i j z p q = table p q := by
  have hfirst : ¬(p = j ∧ q = i) := fun h ↦ hacross (by rw [h.1, h.2])
  have hsecond : ¬(p = i ∧ q = j) := fun h ↦ hpair (by rw [h.1, h.2])
  rw [setPair, if_neg hfirst, if_neg hsecond]

/-- The entry of a pair is the one that was set. -/
theorem setPair_same (z : Cplx α) (hne : p ≠ q) : setPair table p q z p q = z := by
  rw [setPair, if_neg fun h ↦ hne h.1, if_pos ⟨rfl, rfl⟩]

/-- The entry across the diagonal is the conjugate of the one that was set. -/
theorem setPair_across (z : Cplx α) : setPair table p q z q p = z.conj := by
  rw [setPair, if_pos ⟨rfl, rfl⟩]

variable (k : KPoint α)

/-- The walk leaves alone what it does not visit. -/
theorem writePairs_of_not_mem {places : List (ℕ × ℕ)} (hoppings : List (Hopping α))
    (hpair : (p, q) ∉ places) (hacross : (q, p) ∉ places) :
    writePairs k places hoppings table p q = table p q := by
  induction places generalizing hoppings table with
  | nil => rfl
  | cons place places ih =>
    cases hoppings with
    | nil => rfl
    | cons hopping hoppings =>
      rw [List.mem_cons, not_or] at hpair hacross
      rw [writePairs, ih hoppings hpair.2 hacross.2,
        setPair_of_ne _ (Ne.symm hpair.1) (Ne.symm hacross.1)]

/-- The walk writes at a place the entry of the hopping that it has reached there, and across the
diagonal the conjugate. -/
theorem writePairs_getElem? {places : List (ℕ × ℕ)} (hnodup : places.Nodup)
    (habove : ∀ place ∈ places, place.1 < place.2) {hoppings : List (Hopping α)}
    {hopping : Hopping α} {t : ℕ} (hplace : places[t]? = some (p, q))
    (hhopping : hoppings[t]? = some hopping) :
    writePairs k places hoppings table p q = hopping.entry k ∧
      writePairs k places hoppings table q p = (hopping.entry k).conj := by
  induction places generalizing hoppings table t with
  | nil => cases hplace
  | cons place places ih =>
    cases hoppings with
    | nil => cases hhopping
    | cons first hoppings =>
      have habove' : ∀ place ∈ places, place.1 < place.2 := fun place hmem ↦
        habove place (List.mem_cons_of_mem _ hmem)
      rw [writePairs]
      cases t with
      | zero =>
        cases hplace
        cases hhopping
        -- Neither the place nor the one across is visited again.
        have hlt : p < q := habove (p, q) List.mem_cons_self
        have hpair : (p, q) ∉ places := (List.nodup_cons.mp hnodup).1
        have hacross : (q, p) ∉ places := fun hmem ↦ (habove' _ hmem).asymm hlt
        rw [writePairs_of_not_mem k hoppings hpair hacross,
          writePairs_of_not_mem k hoppings hacross hpair]
        exact ⟨setPair_same _ hlt.ne, setPair_across _⟩
      | succ t => exact ih (List.nodup_cons.mp hnodup).2 habove' hplace hhopping

end

/-! ## The Hamiltonian -/

/-- A square table with given entries above the diagonal, their conjugates below it and nothing on
it. -/
structure IsPairTable (m : CMatrix α) (n : ℕ) (entry : ℕ → ℕ → Cplx α) : Prop where
  nrows : m.nrows = n
  ncols : m.ncols = n
  above : ∀ i j, i < j → j < n → m.get i j = entry i j
  below : ∀ i j, i < j → j < n → m.get j i = (entry i j).conj
  diagonal : ∀ i < n, m.get i i = Cplx.zero

/-- A pair table is determined above the diagonal. -/
theorem IsPairTable.congr {m : CMatrix α} {n : ℕ} {entry entry' : ℕ → ℕ → Cplx α}
    (h : IsPairTable m n entry) (heq : ∀ i j, i < j → j < n → entry i j = entry' i j) :
    IsPairTable m n entry' where
  nrows := h.nrows
  ncols := h.ncols
  above i j hij hj := (h.above i j hij hj).trans (heq i j hij hj)
  below i j hij hj := (h.below i j hij hj).trans (congrArg Cplx.conj (heq i j hij hj))
  diagonal := h.diagonal

/-- Every pair table is Hermitian. -/
theorem IsPairTable.isHermitian {m : CMatrix ℝ} {n : ℕ} {entry : ℕ → ℕ → Cplx ℝ}
    (h : IsPairTable m n entry) : (m.toMatrix n).IsHermitian := by
  apply Matrix.IsHermitian.ext
  intro i j
  rw [CMatrix.toMatrix_apply, CMatrix.toMatrix_apply, ← Cplx.toComplex_conj]
  rcases lt_trichotomy i.val j.val with hij | hij | hij
  · rw [h.above i j hij j.isLt, h.below i j hij j.isLt, Cplx.toComplex_conj, Cplx.toComplex_conj,
      star_star]
  · rw [← hij, h.diagonal i i.isLt]
    simp
  · rw [h.above j i hij i.isLt, h.below j i hij i.isLt]

namespace Model

variable {model : Model α}

/-- The Hamiltonian is the pair table of its hoppings. -/
theorem isPairTable (model : Model α) (k : KPoint α) :
    IsPairTable (model.hamiltonian k) model.atoms.size (model.pairEntry k) where
  nrows := rfl
  ncols := rfl
  above i j hij hj := by
    rw [hamiltonian, CMatrix.get_ofFn (hij.trans hj) hj, if_pos hij]
  below i j hij hj := by
    rw [hamiltonian, CMatrix.get_ofFn hj (hij.trans hj), if_neg hij.asymm, if_pos hij]
  diagonal i hi := by
    rw [hamiltonian, CMatrix.get_ofFn hi hi, if_neg (lt_irrefl i), if_neg (lt_irrefl i)]

variable (hhoppings : model.hoppings = pairHoppings model.params model.cell model.atoms)

include hhoppings

/-- The entry of a pair is that of the one hopping between its atoms. -/
theorem pairEntry_eq_entry (k : KPoint α) {i j : ℕ} (hij : i < j) (hj : j < model.atoms.size) :
    model.pairEntry k i j = (pairHopping model.params model.cell model.atoms i j).entry k := by
  have hplace : model.hoppings[pairIndex model.atoms.size i j]? =
      some (pairHopping model.params model.cell model.atoms i j) := by
    rw [hhoppings, ← Array.getElem?_toList, toList_pairHoppings_eq_map, List.getElem?_map,
      pairs_getElem?_pairIndex hij hj, Option.map_some]
  rw [pairEntry, hplace]
  rfl

/-- The walk over the pairs writes the Hamiltonian into an empty table. -/
theorem hamiltonian_eq_writePairs (k : KPoint α) :
    model.hamiltonian k = CMatrix.ofFn model.atoms.size model.atoms.size
      (writePairs k (pairs model.atoms.size) model.hoppings.toList fun _ _ ↦ Cplx.zero) := by
  have hwritten : ∀ {i j : ℕ}, i < j → j < model.atoms.size →
      writePairs k (pairs model.atoms.size) model.hoppings.toList (fun _ _ ↦ Cplx.zero) i j =
          model.pairEntry k i j ∧
        writePairs k (pairs model.atoms.size) model.hoppings.toList (fun _ _ ↦ Cplx.zero) j i =
          (model.pairEntry k i j).conj := by
    intro i j hij hj
    rw [pairEntry_eq_entry hhoppings k hij hj]
    refine writePairs_getElem? k (nodup_pairs _) (fun place hmem ↦ (mem_pairs.mp hmem).1)
      (pairs_getElem?_pairIndex hij hj) ?_
    rw [hhoppings, toList_pairHoppings_eq_map, List.getElem?_map,
      pairs_getElem?_pairIndex hij hj, Option.map_some]
  unfold hamiltonian
  refine CMatrix.ofFn_congr fun i hi j hj ↦ ?_
  rcases lt_trichotomy i j with hij | rfl | hij
  · rw [if_pos hij, (hwritten hij hj).1]
  · have hdiagonal : (i, i) ∉ pairs model.atoms.size := fun hmem ↦
      (mem_pairs.mp hmem).1.ne rfl
    rw [if_neg (lt_irrefl i), if_neg (lt_irrefl i),
      writePairs_of_not_mem k _ hdiagonal hdiagonal]
  · rw [if_neg hij.asymm, if_pos hij, (hwritten hij hi).2]

end Model

/-- There is one hopping for each pair of atoms, and it stands at the place at which the walk over
the table comes to the pair. The Hamiltonian is what the walk writes: above the diagonal the entry
of the hopping of the same pair, below it the conjugate, and nothing on it. With exact numbers the
entry is the strength of the hopping times the phase of its displacement, and the matrix is
Hermitian. -/
theorem hamiltonian_pair_table :
    (∀ {α : Type} [Scalar α] (params : Params α) (cell : Supercell α) (lattice : Lattice.Closure)
        (atoms : Array (Vec3 α)) (k : KPoint α),
      let n := atoms.size
      let hoppings := pairHoppings params cell atoms
      let model : Model α := ⟨params, cell, lattice, atoms, hoppings⟩
      let hopping := pairHopping params cell atoms
      hoppings.size = n * (n - 1) / 2 ∧
        hoppings.toList = (pairs n).map (fun pair ↦ hopping pair.1 pair.2) ∧
        model.hamiltonian k =
          CMatrix.ofFn n n (writePairs k (pairs n) hoppings.toList fun _ _ ↦ Cplx.zero) ∧
        IsPairTable (model.hamiltonian k) n fun i j ↦
          Cplx.polar (hopping i j).amplitude (-k.dot (hopping i j).displacement)) ∧
    ∀ (params : Params ℝ) (cell : Supercell ℝ) (lattice : Lattice.Closure)
        (atoms : Array (Vec3 ℝ)) (k : KPoint ℝ),
      let model : Model ℝ := ⟨params, cell, lattice, atoms, pairHoppings params cell atoms⟩
      let matrix := (model.hamiltonian k).toMatrix atoms.size
      (∀ i j : Fin atoms.size, i < j →
        let hopping := hoppingAlong params (shortestImage cell.translations (atoms[j] - atoms[i]))
        matrix i j =
          hopping.amplitude * Complex.exp (-(Complex.I * k.dot hopping.displacement))) ∧
        matrix.IsHermitian := by
  refine ⟨fun params cell lattice atoms k ↦ ?_, fun params cell lattice atoms k ↦ ?_⟩
  · intro n hoppings model hopping
    have hlist : hoppings.toList = (pairs n).map (fun pair ↦ hopping pair.1 pair.2) :=
      toList_pairHoppings_eq_map params cell atoms
    refine ⟨?_, hlist, Model.hamiltonian_eq_writePairs rfl k, ?_⟩
    · rw [← Array.length_toList, hlist, List.length_map, length_pairs]
    · exact (Model.isPairTable model k).congr fun i j hij hj ↦
        Model.pairEntry_eq_entry rfl k hij hj
  · intro model matrix
    refine ⟨fun i j hij ↦ ?_, (Model.isPairTable model k).isHermitian⟩
    show (model.hamiltonian k).toMatrix atoms.size i j = _
    rw [CMatrix.toMatrix_apply, (Model.isPairTable model k).above i j hij j.isLt,
      Model.pairEntry_eq rfl k hij j.isLt, Vec2.star_phase, neg_mul, mul_comm _ Complex.I]
    rfl

/-- Three atoms, two of them above each other. -/
theorem hamiltonian_pair_table_three :
    let params : Params ℝ := ⟨1, 1, -2700, 480, 1, 2, 1, 5⟩
    let cell := Supercell.create 1 1 (1 : ℝ)
    let atoms : Array (Vec3 ℝ) := #[⟨0, 0, 0⟩, ⟨1 / 2, 0, 0⟩, ⟨1 / 2, 0, 2⟩]
    let model : Model ℝ := ⟨params, cell, ⟨#[], 0⟩, atoms, pairHoppings params cell atoms⟩
    let hopping := hoppingAlong params
      (shortestImage cell.translations (⟨1 / 2, 0, 2⟩ - ⟨1 / 2, 0, 0⟩))
    (pairHoppings params cell atoms).size = 3 ∧
      (pairHoppings params cell atoms).toList =
        [pairHopping params cell atoms 0 1, pairHopping params cell atoms 0 2,
          pairHopping params cell atoms 1 2] ∧
      (model.hamiltonian ⟨1, 2⟩).toMatrix 3 1 2 = hopping.amplitude *
        Complex.exp (-(Complex.I * (⟨1, 2⟩ : Vec2 ℝ).dot hopping.displacement)) ∧
      ((model.hamiltonian ⟨1, 2⟩).toMatrix 3).IsHermitian := by
  intro params cell atoms model hopping
  obtain ⟨hsize, hlist, -, -⟩ := hamiltonian_pair_table.1 params cell ⟨#[], 0⟩ atoms ⟨1, 2⟩
  obtain ⟨hentry, hhermitian⟩ := hamiltonian_pair_table.2 params cell ⟨#[], 0⟩ atoms ⟨1, 2⟩
  have hpairs : pairs atoms.size = [(0, 1), (0, 2), (1, 2)] := by
    show pairs 3 = _
    decide
  rw [hpairs] at hlist
  exact ⟨by simpa [atoms] using hsize, hlist, hentry 1 2 (by decide), hhermitian⟩

end TightBinding

end Moire
