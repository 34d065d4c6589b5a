import Moire.Proofs.FundamentalCell
import Moire.Proofs.LatticeClosure
import Moire.TightBinding.Basic

/-!
# Every site has one representative in the supercell

The four sublattices, with their sites in closed form, and the atoms that each of them contributes
to the supercell. An infinite sublattice falls into classes modulo the superlattice, and every
class has exactly one atom (`Sublattice.existsUnique_atom`), so that a sublattice contributes as
many atoms as a layer has cells. The main statement, `place_atoms_transversal`, says this of the
atoms that are placed when a model is built, and that their number is the expected one.
-/

namespace Moire

open RealScalar

/-- Listing what two indices select row by row or column by column is a matter of order. -/
theorem flatMap_filter_map_perm {α β γ : Type} (rows : List α) (columns : List β) (f : α → β → γ)
    (keep : γ → Bool) :
    (rows.flatMap fun a ↦ (columns.map (f a)).filter keep).Perm
      (columns.flatMap fun b ↦ (rows.map fun a ↦ f a b).filter keep) := by
  have hfilter : ∀ {δ : Type} (items : List δ) (g : δ → γ),
      (items.map g).filter keep = items.flatMap fun d ↦ if keep (g d) then [g d] else [] := by
    intro δ items g
    induction items with
    | nil => rfl
    | cons d items ih =>
        rw [List.map_cons, List.filter_cons, List.flatMap_cons, ih]
        split <;> rfl
  simp only [hfilter, ← Multiset.coe_eq_coe, ← Multiset.coe_bind]
  exact Multiset.bind_bind _ _

/-- The four sublattices: two in each layer. -/
inductive Sublattice where
  | bottomA
  | bottomB
  | topA
  | topB
  deriving DecidableEq

namespace Sublattice

/-- All sublattices, in the order in which their sites are looked at. -/
def all : List Sublattice := [bottomA, bottomB, topA, topB]

/-- The first lattice vector of the layer. -/
def first (cell : Supercell ℝ) : Sublattice → Vec2 ℝ
  | bottomA | bottomB => cell.a₁
  | topA | topB => cell.rotatedA₁

/-- The second lattice vector of the layer. -/
def second (cell : Supercell ℝ) : Sublattice → Vec2 ℝ
  | bottomA | bottomB => cell.a₂
  | topA | topB => cell.rotatedA₂

/-- How far the sites stand from the lattice points, along each of the lattice vectors. -/
noncomputable def offset : Sublattice → ℝ
  | bottomA | topA => 0
  | bottomB | topB => 1 / 3

/-- The height of the layer, given the distance of the two. -/
noncomputable def height (distance : ℝ) : Sublattice → ℝ
  | bottomA | bottomB => 0
  | topA | topB => distance

/-- The first superlattice vector in the lattice of the layer. -/
def label (m0 r : ℕ) : Sublattice → LatticeIndex
  | bottomA | bottomB => Supercell.bottomLabel m0 r
  | topA | topB => Supercell.topLabel m0 r

/-- The site of a sublattice in a lattice cell. -/
noncomputable def site (sublattice : Sublattice) (cell : Supercell ℝ) (distance : ℝ)
    (index : LatticeIndex) : Vec3 ℝ :=
  (Vec2.combine (sublattice.first cell) (sublattice.second cell) (index.i + sublattice.offset)
    (index.j + sublattice.offset)).lift (sublattice.height distance)

/-- The sites of a sublattice in the cells of a lattice that lie in the supercell. -/
noncomputable def atoms (sublattice : Sublattice) (cell : Supercell ℝ) (lattice : Lattice.Closure)
    (distance : ℝ) : List (Vec3 ℝ) :=
  (lattice.indices.toList.map (sublattice.site cell distance)).filter fun site ↦
    cell.holds site.planar

/-- The cells of a lattice whose sites of a sublattice lie in the supercell. -/
noncomputable def placed (sublattice : Sublattice) (cell : Supercell ℝ) (lattice : Lattice.Closure)
    (distance : ℝ) : List LatticeIndex :=
  lattice.indices.toList.filter fun index ↦ cell.holds (sublattice.site cell distance index).planar

/-- The atoms of a sublattice are its sites over the places in the cell. -/
theorem atoms_eq_map (sublattice : Sublattice) (cell : Supercell ℝ) (lattice : Lattice.Closure)
    (distance : ℝ) : sublattice.atoms cell lattice distance =
      (sublattice.placed cell lattice distance).map (sublattice.site cell distance) :=
  List.filter_map

variable {m0 r : ℕ} {a0 distance : ℝ}

/-- Sublattices are moved by at most a third. -/
theorem offset_bounds (sublattice : Sublattice) :
    0 ≤ sublattice.offset ∧ sublattice.offset ≤ 1 / 3 := by
  cases sublattice <;> norm_num [offset]

/-- The four sites of a lattice cell are those of the four sublattices. -/
theorem sites_eq (index : LatticeIndex) :
    TightBinding.sites (Supercell.create m0 r a0) distance index =
      all.map fun sublattice ↦ sublattice.site (Supercell.create m0 r a0) distance index := by
  have hdelta : (Supercell.create m0 r a0).delta =
      ((Supercell.create m0 r a0).a₁ + (Supercell.create m0 r a0).a₂) / (3 : ℝ) := rfl
  have hrotated : (Supercell.create m0 r a0).rotatedDelta =
      ((Supercell.create m0 r a0).rotatedA₁ + (Supercell.create m0 r a0).rotatedA₂) / (3 : ℝ) := rfl
  simp only [TightBinding.sites, all, List.map, List.cons.injEq, site, hdelta, hrotated, ofInt_eq]
  refine ⟨?_, ?_, ?_, ?_, trivial⟩ <;> ext <;>
    simp [Vec2.lift, first, second, offset, height] <;> ring

/-- Every layer is commensurate with the superlattice. -/
theorem commensurate (sublattice : Sublattice) (hr : 1 ≤ r) (ha0 : a0 ≠ 0) :
    (Supercell.create m0 r a0).Commensurate (sublattice.first (Supercell.create m0 r a0))
      (sublattice.second (Supercell.create m0 r a0)) (sublattice.label m0 r) := by
  cases sublattice
  · exact Supercell.bottom_commensurate hr ha0
  · exact Supercell.bottom_commensurate hr ha0
  · exact Supercell.top_commensurate hr ha0
  · exact Supercell.top_commensurate hr ha0

/-- The labels of both layers are within the reach of the supercell's own label. -/
theorem label_norm_le (sublattice : Sublattice) (m0 r : ℕ) :
    (sublattice.label m0 r).norm ≤ 2 * m0 + r := by
  cases sublattice <;>
    unfold label Supercell.bottomLabel Supercell.topLabel LatticeIndex.norm <;>
    dsimp only <;> split <;> dsimp only <;> omega

/-- Every layer has as many cells in the supercell as the bottom layer. -/
theorem label_form (sublattice : Sublattice) (m0 r : ℕ) :
    (sublattice.label m0 r).form = (Supercell.bottomLabel m0 r).form := by
  cases sublattice with
  | bottomA | bottomB => rfl
  | topA | topB => exact Supercell.topLabel_form

section

variable {cell : Supercell ℝ} {sublattice : Sublattice} {label : LatticeIndex}
  (h : cell.Commensurate (sublattice.first cell) (sublattice.second cell) label)

include h

/-- A superlattice vector leads from a site to a site of the same sublattice. -/
theorem site_shift (index : LatticeIndex) (a b : ℤ) :
    sublattice.site cell distance (index.shift label a b) =
      sublattice.site cell distance index + (Vec2.combine cell.r₁ cell.r₃ a b).lift 0 := by
  rw [site, site, h.combine_shift]
  ext <;> simp [Vec2.lift]

/-- Different cells have different sites. -/
theorem site_injective : Function.Injective (sublattice.site cell distance) := by
  rintro ⟨i, j⟩ ⟨k, l⟩ heq
  have hplanar : Vec2.combine (sublattice.first cell) (sublattice.second cell)
      (i + sublattice.offset) (j + sublattice.offset) =
        Vec2.combine (sublattice.first cell) (sublattice.second cell)
          (k + sublattice.offset) (l + sublattice.offset) := congrArg Vec3.planar heq
  obtain ⟨hi, hj⟩ := Vec2.combine_injective h.independent hplanar
  rw [add_left_inj, Int.cast_inj] at hi hj
  rw [hi, hj]

/-- Sites of a sublattice are congruent when a superlattice vector leads from cell to cell. -/
theorem congruent_site_iff {index other : LatticeIndex} :
    cell.Congruent (sublattice.site cell distance index) (sublattice.site cell distance other) ↔
      ∃ a b : ℤ, other = index.shift label a b := by
  rw [Supercell.congruent_iff_sides]
  refine exists_congr fun a ↦ exists_congr fun b ↦ ?_
  rw [← site_shift h, (site_injective h).eq_iff]

/-- Exactly one superlattice vector leads from a site into the supercell. -/
theorem existsUnique_holds (index : LatticeIndex) (distance : ℝ) :
    ∃! step : ℤ × ℤ, cell.holds
      (sublattice.site cell distance (index.shift label step.1 step.2)).planar = true := by
  have hplanar : ∀ a b : ℤ, (sublattice.site cell distance (index.shift label a b)).planar =
      (sublattice.site cell distance index).planar + Vec2.combine cell.r₁ cell.r₃ a b := by
    intro a b
    rw [site_shift h]
    rfl
  simp only [hplanar, h.holds_add_iff]
  refine ⟨⟨_, _⟩, ⟨rfl, rfl⟩, ?_⟩
  rintro ⟨a, b⟩ ⟨ha, hb⟩
  exact Prod.ext ha hb

/-- Atoms of a sublattice that are congruent to the same site are the same. -/
theorem eq_of_congruent {lattice : Lattice.Closure} {index : LatticeIndex} {atom other : Vec3 ℝ}
    (hatom : atom ∈ sublattice.atoms cell lattice distance)
    (hother : other ∈ sublattice.atoms cell lattice distance)
    (hcongruent : cell.Congruent (sublattice.site cell distance index) atom)
    (hsame : cell.Congruent (sublattice.site cell distance index) other) : atom = other := by
  rw [atoms_eq_map, List.mem_map] at hatom hother
  obtain ⟨place, hplace, rfl⟩ := hatom
  obtain ⟨spot, hspot, rfl⟩ := hother
  obtain ⟨a, b, rfl⟩ := (congruent_site_iff h).mp hcongruent
  obtain ⟨c, d, rfl⟩ := (congruent_site_iff h).mp hsame
  have hstep : (a, b) = (c, d) := (existsUnique_holds h index distance).unique
    (List.mem_filter.mp hplace).2 (List.mem_filter.mp hspot).2
  rw [Prod.mk.injEq] at hstep
  rw [hstep.1, hstep.2]

variable {lattice : Lattice.Closure} (hnodup : lattice.indices.toList.Nodup)

include hnodup

/-- No atom of a sublattice is placed twice. -/
theorem atoms_nodup : (sublattice.atoms cell lattice distance).Nodup := by
  rw [atoms_eq_map]
  exact (hnodup.filter _).map (site_injective h)

variable (hreach : ∀ index : LatticeIndex, index.norm ≤ label.norm → index ∈ lattice.indices.toList)

omit hnodup in
include hreach in
/-- A lattice that reaches the norm of the label has all cells whose sites lie in the supercell. -/
theorem mem_placed_iff (index : LatticeIndex) :
    index ∈ sublattice.placed cell lattice distance ↔
      cell.holds (sublattice.site cell distance index).planar = true := by
  rw [placed, List.mem_filter]
  refine ⟨And.right, fun hholds ↦ ⟨?_, hholds⟩⟩
  exact hreach index (h.norm_le_of_holds sublattice.offset_bounds hholds)

include hreach

/-- A sublattice has as many atoms in the supercell as its layer has cells there. -/
theorem length_atoms : ((sublattice.atoms cell lattice distance).length : ℤ) = label.form := by
  rw [atoms_eq_map, List.length_map]
  refine LatticeIndex.length_of_transversal h.form_pos (hnodup.filter _) fun index ↦ ?_
  simp only [mem_placed_iff h hreach]
  exact existsUnique_holds h index distance

/-- Every site of a sublattice is congruent to exactly one of its atoms. -/
theorem existsUnique_atom (index : LatticeIndex) :
    ∃! k : Fin (sublattice.atoms cell lattice distance).length,
      cell.Congruent (sublattice.site cell distance index)
        ((sublattice.atoms cell lattice distance).get k) := by
  obtain ⟨⟨a, b⟩, hholds, -⟩ := existsUnique_holds h index distance
  have hatom : sublattice.site cell distance (index.shift label a b) ∈
      sublattice.atoms cell lattice distance := by
    rw [atoms_eq_map]
    exact List.mem_map_of_mem ((mem_placed_iff h hreach _).mpr hholds)
  have hcongruent : cell.Congruent (sublattice.site cell distance index)
      (sublattice.site cell distance (index.shift label a b)) :=
    (congruent_site_iff h).mpr ⟨a, b, rfl⟩
  obtain ⟨k, hk⟩ := List.get_of_mem hatom
  refine ⟨k, by simpa only [hk] using hcongruent, fun l hl ↦ ?_⟩
  have hsame := eq_of_congruent h (List.get_mem _ l) hatom hl hcongruent
  exact (atoms_nodup h hnodup).injective_get (hsame.trans hk.symm)

end

end Sublattice

namespace TightBinding

variable {m0 r : ℕ} {a0 distance : ℝ}

/-- The atoms are those of the four sublattices. -/
theorem perm_of_placeAtoms {lattice : Lattice.Closure} {atoms : Array (Vec3 ℝ)}
    (h : placeAtoms (Supercell.create m0 r a0) lattice distance = .ok atoms) :
    atoms.toList.Perm (Sublattice.all.flatMap fun sublattice ↦
      sublattice.atoms (Supercell.create m0 r a0) lattice distance) := by
  obtain ⟨count, -, h⟩ := bind_eq_ok.mp h
  obtain ⟨-, -, h⟩ := bind_eq_ok.mp h
  cases h
  rw [Array.toList_flatMap]
  simp only [Sublattice.sites_eq]
  exact flatMap_filter_map_perm _ _ _ _

/-- The atoms are placed when there is memory for them. -/
theorem exists_placeAtoms {cell : Supercell ℝ} (lattice : Lattice.Closure) (distance : ℝ)
    (hroom : 4 * cell.cells * 24 < memoryLimit) :
    ∃ atoms, placeAtoms cell lattice distance = .ok atoms := by
  have hcount : cell.atomCount = .ok (4 * cell.cells) := mulCount_eq_ok (by
    unfold memoryLimit at hroom
    unfold countLimit
    omega)
  exact ⟨_, bind_eq_ok.mpr ⟨_, hcount, bind_eq_ok.mpr ⟨(), reserve_eq_ok hroom, rfl⟩⟩⟩

/-- Atoms that were placed have been counted. -/
theorem atomCount_of_placeAtoms {cell : Supercell ℝ} {lattice : Lattice.Closure}
    {atoms : Array (Vec3 ℝ)} (h : placeAtoms cell lattice distance = .ok atoms) :
    cell.atomCount = .ok (4 * cell.cells) := by
  obtain ⟨count, hcount, -⟩ := bind_eq_ok.mp h
  unfold Supercell.atomCount mulCount at hcount ⊢
  split at hcount
  next hsmall => exact if_pos hsmall
  next => cases hcount

/-- A short label has few enough cells for counts and for memory. -/
theorem cells_room (a0 : ℝ) (hsize : 2 * m0 + r < 300000) :
    ((Supercell.create m0 r a0).cells : ℤ) = (Supercell.bottomLabel m0 r).form ∧
      4 * (Supercell.create m0 r a0).cells * 24 < memoryLimit := by
  have hform : (Supercell.bottomLabel m0 r).form < 90000000000 := by
    have hlabel : (2 * (m0 : ℤ) + r) < 300000 := by exact_mod_cast hsize
    calc (Supercell.bottomLabel m0 r).form ≤ (2 * m0 + r) ^ 2 := Supercell.bottomLabel_form_le
      _ < 300000 ^ 2 := by gcongr
      _ = 90000000000 := by norm_num
  have hcells : ((Supercell.create m0 r a0).cells : ℤ) = (Supercell.bottomLabel m0 r).form := by
    refine Supercell.cells_eq ?_
    unfold countLimit
    omega
  refine ⟨hcells, ?_⟩
  unfold memoryLimit
  omega

/-- A check that stops only by refusing a parameter. -/
def Checks (outcome : Outcome Unit) : Prop :=
  ∀ failure, outcome = .error failure →
    ∃ name reason, failure = .error (.invalidParameter name reason)

/-- A refusal is a check. -/
theorem Checks.refuse (name reason : String) : Checks (refuse name reason) := by
  rintro failure ⟨⟩
  exact ⟨name, reason, rfl⟩

/-- Checks one after the other are a check. -/
theorem Checks.next {first next : Outcome Unit} (hfirst : Checks first) (hnext : Checks next) :
    Checks (first >>= fun _ ↦ next) := by
  cases first with
  | ok value => exact hnext
  | error failure => exact hfirst

/-- The test that a value is positive is a check. -/
theorem checks_requirePositive (name : String) (value : ℝ) :
    Checks (requirePositive name value) := by
  unfold requirePositive
  split
  · exact Checks.refuse _ _
  · exact nofun

/-- Parameters are refused by name. -/
theorem checks_validate (params : Params ℝ) : Checks params.validate := by
  unfold Params.validate
  split
  · exact Checks.refuse _ _
  · exact (checks_requirePositive _ _).next
      ((checks_requirePositive _ _).next (checks_requirePositive _ _))

/-- The test is passed just by positive values. -/
theorem requirePositive_eq_ok {name : String} {value : ℝ} :
    requirePositive name value = .ok () ↔ 0 < value := by
  unfold requirePositive
  rw [isPositive_eq]
  by_cases h : 0 < value
  · simp only [h, decide_true]
    exact iff_of_true rfl trivial
  · simp only [h, decide_false]
    exact iff_of_false nofun not_false

/-- Parameters are accepted just if `r` is not zero and the lengths and the step are positive. -/
theorem validate_eq_ok {params : Params ℝ} : params.validate = .ok () ↔
    params.r ≠ 0 ∧ 0 < params.latticeConstant ∧ 0 < params.interlayerDistance ∧
      0 < params.intervalK := by
  by_cases hr : params.r = 0
  · simp only [Params.validate, if_pos hr]
    exact iff_of_false nofun fun h ↦ h.1 hr
  · simp only [Params.validate, if_neg hr]
    constructor
    · intro h
      obtain ⟨_, ha0, h⟩ := bind_eq_ok.mp h
      obtain ⟨_, hd0, hstep⟩ := bind_eq_ok.mp h
      exact ⟨hr, requirePositive_eq_ok.mp ha0, requirePositive_eq_ok.mp hd0,
        requirePositive_eq_ok.mp hstep⟩
    · rintro ⟨-, ha0, hd0, hstep⟩
      exact bind_eq_ok.mpr ⟨(), requirePositive_eq_ok.mpr ha0, bind_eq_ok.mpr
        ⟨(), requirePositive_eq_ok.mpr hd0, requirePositive_eq_ok.mpr hstep⟩⟩

/-- Accepted lengths are positive. -/
theorem pos_of_validate {params : Params ℝ} (h : params.validate = .ok ()) :
    0 < params.latticeConstant ∧ 0 < params.interlayerDistance :=
  ⟨(validate_eq_ok.mp h).2.1, (validate_eq_ok.mp h).2.2.1⟩

/-- The lattice reaches the cells of both layers. -/
theorem exists_lattice {maxRounds : ℕ} (hrounds : 2 * m0 + r ≤ maxRounds)
    (hsize : 2 * m0 + r < 300000) :
    ∃ target lattice, Lattice.commensurateTarget m0 r = .ok target ∧
      Lattice.expandUntil target maxRounds = .ok lattice ∧ lattice.indices.toList.Nodup ∧
      ∀ (sublattice : Sublattice) (index : LatticeIndex),
        index.norm ≤ (sublattice.label m0 r).norm → index ∈ lattice.indices.toList := by
  have htarget : Lattice.commensurateTarget m0 r = .ok ⟨m0, m0 + r⟩ :=
    Lattice.commensurateTarget_eq_ok (by omega)
  have hnorm : LatticeIndex.norm ⟨m0, m0 + r⟩ = 2 * m0 + r := by
    unfold LatticeIndex.norm
    dsimp only
    omega
  obtain ⟨lattice, hlattice, hnodup, hmem⟩ :=
    Lattice.exists_hexagon (hnorm.trans_le hrounds) (by omega)
  refine ⟨_, lattice, htarget, hlattice, hnodup, fun sublattice index hindex ↦ ?_⟩
  rw [hmem, hnorm]
  exact hindex.trans (sublattice.label_norm_le m0 r)

/-- The atoms of a sublattice represent all of its sites. -/
structure Represents (cell : Supercell ℝ) (sublattice : Sublattice) (lattice : Lattice.Closure)
    (distance : ℝ) : Prop where
  /-- There are as many atoms as a layer has cells. -/
  length_eq : (sublattice.atoms cell lattice distance).length = cell.cells
  /-- Every site of the infinite sublattice is congruent to exactly one atom. -/
  existsUnique (index : LatticeIndex) :
    ∃! k : Fin (sublattice.atoms cell lattice distance).length,
      cell.Congruent (sublattice.site cell distance index)
        ((sublattice.atoms cell lattice distance).get k)

/-- The four sublattices contribute the same number of atoms. -/
theorem size_eq {cell : Supercell ℝ} {lattice : Lattice.Closure} {atoms : Array (Vec3 ℝ)}
    (hperm : atoms.toList.Perm
      (Sublattice.all.flatMap fun sublattice ↦ sublattice.atoms cell lattice distance))
    (hall : ∀ sublattice, Represents cell sublattice lattice distance) :
    atoms.size = 4 * cell.cells := by
  have hlength := hperm.length_eq
  simp only [Sublattice.all, List.flatMap_cons, List.flatMap_nil, List.length_append,
    List.length_nil, (hall _).length_eq, Array.length_toList] at hlength
  omega

/-- With enough rounds, the atoms are placed and represent all sites. -/
theorem exists_placement {maxRounds : ℕ} (distance : ℝ) (hr : 1 ≤ r) (ha0 : a0 ≠ 0)
    (hrounds : 2 * m0 + r ≤ maxRounds) (hsize : 2 * m0 + r < 300000) :
    ∃ target lattice atoms, Lattice.commensurateTarget m0 r = .ok target ∧
      Lattice.expandUntil target maxRounds = .ok lattice ∧
      placeAtoms (Supercell.create m0 r a0) lattice distance = .ok atoms ∧
      ∀ sublattice, Represents (Supercell.create m0 r a0) sublattice lattice distance := by
  obtain ⟨target, lattice, htarget, hlattice, hnodup, hreach⟩ := exists_lattice hrounds hsize
  obtain ⟨hcells, hroom⟩ := cells_room a0 hsize
  obtain ⟨atoms, hatoms⟩ := exists_placeAtoms lattice distance hroom
  refine ⟨target, lattice, atoms, htarget, hlattice, hatoms, fun sublattice ↦ ⟨?_, ?_⟩⟩
  · have hlength : ((sublattice.atoms (Supercell.create m0 r a0) lattice distance).length : ℤ) =
        (sublattice.label m0 r).form :=
      Sublattice.length_atoms (sublattice.commensurate hr ha0) hnodup (hreach sublattice)
    rw [sublattice.label_form, ← hcells] at hlength
    exact_mod_cast hlength
  · exact Sublattice.existsUnique_atom (sublattice.commensurate hr ha0) hnodup (hreach sublattice)

/-- Building succeeds when the atoms that are placed represent all sites. -/
theorem exists_model {params : Params ℝ} {target : LatticeIndex} {lattice : Lattice.Closure}
    {atoms : Array (Vec3 ℝ)} (hvalid : params.validate = .ok ())
    (htarget : Lattice.commensurateTarget params.m0 params.r = .ok target)
    (hlattice : Lattice.expandUntil target params.maxLatticeRounds = .ok lattice)
    (hatoms : placeAtoms (Supercell.create params.m0 params.r params.latticeConstant) lattice
      params.interlayerDistance = .ok atoms)
    (hall : ∀ sublattice, Represents
      (Supercell.create params.m0 params.r params.latticeConstant) sublattice lattice
      params.interlayerDistance) :
    ∃ model, Model.create params = .ok model ∧ model.atoms = atoms := by
  set cell := Supercell.create params.m0 params.r params.latticeConstant with hcell
  have hcount : cell.atomCount = .ok atoms.size := by
    rw [size_eq (perm_of_placeAtoms hatoms) hall]
    exact atomCount_of_placeAtoms hatoms
  refine ⟨⟨params, cell, lattice, atoms, pairHoppings params cell atoms⟩, ?_, rfl⟩
  refine bind_eq_ok.mpr ⟨(), hvalid, bind_eq_ok.mpr ⟨target, htarget, ?_⟩⟩
  refine bind_eq_ok.mpr ⟨lattice, hlattice, bind_eq_ok.mpr ⟨atoms, hatoms, ?_⟩⟩
  exact bind_eq_ok.mpr ⟨atoms.size, hcount, if_neg (not_not_intro rfl)⟩

/-- Each sublattice of the supercell contributes as many atoms as a layer has cells, one for every
site of the infinite sublattice modulo the superlattice, so that the number of atoms is the
expected one and building the model never reports another. -/
theorem place_atoms_transversal (params : Params ℝ) (hr : 1 ≤ params.r)
    (hrounds : 2 * params.m0 + params.r ≤ params.maxLatticeRounds)
    (hsize : 2 * params.m0 + params.r < 300000) :
    let cell := Supercell.create params.m0 params.r params.latticeConstant
    (params.latticeConstant ≠ 0 → ∃ target lattice atoms,
      Lattice.commensurateTarget params.m0 params.r = .ok target ∧
      Lattice.expandUntil target params.maxLatticeRounds = .ok lattice ∧
      placeAtoms cell lattice params.interlayerDistance = .ok atoms ∧
      atoms.toList.Perm (Sublattice.all.flatMap fun sublattice ↦
        sublattice.atoms cell lattice params.interlayerDistance) ∧
      (∀ sublattice, Represents cell sublattice lattice params.interlayerDistance) ∧
      atoms.size = 4 * cell.cells ∧
      (params.validate = .ok () →
        ∃ model, Model.create params = .ok model ∧ model.atoms = atoms)) ∧
    ∀ context expected found,
      Model.create params ≠ fail (.dimensionMismatch context expected found) := by
  intro cell
  refine ⟨fun ha0 ↦ ?_, fun context expected found hfail ↦ ?_⟩
  · obtain ⟨target, lattice, atoms, htarget, hlattice, hatoms, hall⟩ :=
      exists_placement params.interlayerDistance hr ha0 hrounds hsize
    have hperm := perm_of_placeAtoms hatoms
    exact ⟨target, lattice, atoms, htarget, hlattice, hatoms, hperm, hall, size_eq hperm hall,
      fun hvalid ↦ exists_model hvalid htarget hlattice hatoms hall⟩
  · cases hvalid : params.validate with
    | ok =>
        obtain ⟨target, lattice, atoms, htarget, hlattice, hatoms, hall⟩ := exists_placement
          params.interlayerDistance hr (pos_of_validate hvalid).1.ne' hrounds hsize
        obtain ⟨model, hmodel, -⟩ := exists_model hvalid htarget hlattice hatoms hall
        rw [hmodel] at hfail
        cases hfail
    | error failure =>
        obtain ⟨name, reason, rfl⟩ := checks_validate params failure hvalid
        simp only [Model.create, hvalid] at hfail
        cases hfail

/-- The smallest supercell of the second kind has seven cells in each layer. -/
theorem place_atoms_transversal_seven :
    1 ≤ 3 ∧ 2 * 1 + 3 ≤ 5 ∧ 2 * 1 + 3 < 300000 ∧ (Supercell.create 1 3 (1 : ℝ)).cells = 7 ∧
    ∃ lattice atoms, placeAtoms (Supercell.create 1 3 (1 : ℝ)) lattice 2 = .ok atoms ∧
      (∀ sublattice, Represents (Supercell.create 1 3 1) sublattice lattice 2) ∧
      atoms.size = 28 := by
  have hcells : ((Supercell.create 1 3 (1 : ℝ)).cells : ℤ) = 7 := Supercell.cells_eq (by decide)
  have hcells' : (Supercell.create 1 3 (1 : ℝ)).cells = 7 := by exact_mod_cast hcells
  obtain ⟨_, lattice, atoms, -, -, hatoms, -, hall, hsize, -⟩ := (place_atoms_transversal
    ⟨1, 3, -2700, 480, 1, 2, 1, 5⟩ (by decide) (by decide) (by decide)).1 one_ne_zero
  dsimp only at hatoms hall hsize
  rw [hcells'] at hsize
  exact ⟨by decide, by decide, by decide, hcells', lattice, atoms, hatoms, hall, hsize⟩

end TightBinding

end Moire
