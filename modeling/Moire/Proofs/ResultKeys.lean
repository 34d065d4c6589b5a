import Mathlib.Tactic
import Moire.Proofs.Evaluation
import Moire.Proofs.FloatProduct
import Moire.Proofs.PlainText
import Moire.Proofs.TwoRuns
import Std.Data.String.ToInt

/-!
# What a key tells

A key is a row of fields with bars between them, and no field holds a bar, so that the fields can be
told from the key (`fields`). Together with the laws of the numbers that stand in keys, `KeyLaws`, a
key determines the name of the model, its angle to four decimals, what was computed, and every input
of the computation but the photon energies. That is the main statement, `Stores.reproduces`: of two
contexts with the same bands that store something under the same key, and have the same photon
energies if it is a spectrum, one computes what the other does. The path of a band structure stands
in the key only through the number of its points, which is enough. The number of workers does not
stand in it, and it does not matter for what is computed.
-/

namespace Moire

/-- What keys need of the numbers in them. -/
class KeyLaws (α : Type) [Scalar α] : Prop where
  text_injective : Function.Injective (Number.text : α → String)
  isField_text (x : α) : IsField (Number.text x)
  isField_fixed (places : ℕ) (x : α) : IsField (Number.fixed places x)
  eq_of_isPositive {x y : α} (hx : Number.isPositive x = true) (h : Number.eq x y = true) : y = x
  denser_total (d d' : α) : Denser (Number.nonnegative d) (Number.nonnegative d') ∨
    Denser (Number.nonnegative d') (Number.nonnegative d)

/-- Machine floats can stand in keys. -/
instance : KeyLaws Float where
  text_injective := Layout.plain_injective
  isField_text := Layout.isField_plain
  isField_fixed := Layout.isField_fixed
  eq_of_isPositive := Binary64.eq_of_isPositive
  denser_total := Binary64.denser_total

/-! ## Fields -/

/-- The fields of a key. -/
def fields (key : String) : List (List Char) := key.toList.splitOn '_'

theorem toString_text (text : String) : toString text = text := rfl

/-- The fields of two texts joined by a mark are those of the first and those of the second. -/
theorem fields_append (first rest : String) :
    fields (first ++ "_" ++ rest) = fields first ++ fields rest := by
  simp only [fields, String.toList_append]
  rw [show "_".toList = ['_'] from rfl, List.append_assoc, List.singleton_append,
    List.splitOn_append_cons_self]

/-- A field is its own only field. -/
theorem fields_eq_singleton {text : String} (h : IsField text) : fields text = [text.toList] :=
  List.splitOn_eq_singleton (h.notMem rfl)

/-- What is stored. -/
inductive Quantity where
  | energies
  | bands
  | absorption
  | conductivity
  | raman
  deriving DecidableEq

/-- The name of what is stored. -/
def Quantity.text : Quantity → String
  | energies => "energies"
  | bands => "bands"
  | absorption => "absorption"
  | conductivity => "conductivity"
  | raman => "raman"

/-- What is stored holds photon energies, which do not stand in its key. -/
def Quantity.IsSpectral (quantity : Quantity) : Prop :=
  quantity = .absorption ∨ quantity = .conductivity

instance (quantity : Quantity) : Decidable quantity.IsSpectral :=
  inferInstanceAs (Decidable (_ ∨ _))

/-- What is stored depends on derivatives of the Hamiltonian. -/
def Quantity.IsOptical (quantity : Quantity) : Prop :=
  quantity ≠ .energies ∧ quantity ≠ .bands

instance (quantity : Quantity) : Decidable quantity.IsOptical :=
  inferInstanceAs (Decidable (_ ∧ _))

/-- No two quantities have the same name. -/
theorem Quantity.text_injective : Function.Injective Quantity.text := by
  intro q q' h
  cases q <;> cases q' <;> first | rfl | exact absurd h (by decide)

/-- The name of a quantity is a field. -/
theorem Quantity.isField_text (quantity : Quantity) : IsField quantity.text := by
  cases quantity <;> decide

variable {α : Type} [Scalar α]

/-- The fields of a key are those of the model, then the quantity, the angle and the density. -/
theorem fields_resultKey [KeyLaws α] (model : BandModel α) (quantity : Quantity) (density : ℕ) :
    fields (resultKey model quantity.text density) = fields model.name ++
      [quantity.text.toList, (Number.fixed 4 model.twistAngle).toList, "density".toList,
        (Nat.repr density).toList] := by
  have hkey : resultKey model quantity.text density = model.name ++ "_" ++ (quantity.text ++ "_" ++
      (Number.fixed 4 model.twistAngle ++ "_" ++ ("density" ++ "_" ++ Nat.repr density))) := by
    apply String.toList_inj.mp
    simp [resultKey, toString_text]
  rw [hkey, fields_append, fields_append, fields_append, fields_append,
    fields_eq_singleton quantity.isField_text, fields_eq_singleton (KeyLaws.isField_fixed 4 _),
    fields_eq_singleton (show IsField "density" by decide),
    fields_eq_singleton (Layout.isField_repr density)]
  rfl

/-- A whole number is written as a field. -/
theorem isField_intRepr (n : ℤ) : IsField (Int.repr n) := by
  cases n with
  | ofNat n => exact Layout.isField_repr n
  | negSucc n => exact IsField.append (show IsField "-" by decide) (Layout.isField_repr (n + 1))

/-- Every field that is appended to a key is one more of its fields. -/
theorem fields_append_join (first : String) {texts : List String}
    (h : ∀ text ∈ texts, IsField text) :
    fields (first ++ String.join (texts.map ("_" ++ ·))) =
      fields first ++ texts.map String.toList := by
  induction texts generalizing first with
  | nil => simp
  | cons text texts ih =>
      rw [List.forall_mem_cons] at h
      have hkey : first ++ String.join ((text :: texts).map ("_" ++ ·)) =
          first ++ "_" ++ text ++ String.join (texts.map ("_" ++ ·)) := by
        apply String.toList_inj.mp
        simp
      rw [hkey, ih _ h.2, fields_append, fields_eq_singleton h.1]
      simp

/-- The two written ends tell the window. -/
theorem window_eq_of_repr {window window' : BandWindow}
    (h : [Int.repr window.lower, Int.repr window.upper] =
      [Int.repr window'.lower, Int.repr window'.upper]) : window = window' := by
  simp only [List.cons.injEq, and_true, Int.repr_inj] at h
  obtain ⟨lower, upper⟩ := window
  obtain ⟨rfl, rfl⟩ := h
  rfl

/-- Not both numbers of bands of a Raman sum are zero. Such a sum is refused, but its key is also
that of the sum without a number of inner bands, which is not. -/
def ObservableParams.Unambiguous (params : ObservableParams α) : Prop :=
  ¬ (params.numHalf = some 0 ∧ params.ramanInnerTransitions = some 0)

/-- The amplitude of a transition does not depend on the numbers of bands. -/
theorem Raman.term_congr {params params' : RamanParams α}
    (hphoton : params.photonEnergy = params'.photonEnergy)
    (hphonon : params.phononEnergy = params'.phononEnergy) (hgamma : params.gamma = params'.gamma) :
    Raman.term params = Raman.term params' := by
  obtain ⟨photon, phonon, gamma, half, inner⟩ := params
  obtain ⟨photon', phonon', gamma', half', inner'⟩ := params'
  obtain rfl : photon = photon' := hphoton
  obtain rfl : phonon = phonon' := hphonon
  obtain rfl : gamma = gamma' := hgamma
  rfl

/-- The spectrum does not depend on the number of workers. -/
theorem Absorption.spectrum_of_spectrum {model : BandModel α} {solve : Solver α}
    {evaluator other : Evaluator} {points : List (KPoint α)} {half : ℕ} {photons : List α}
    {broadening : α} {result : AbsorptionSpectrum α}
    (h : spectrum model solve evaluator points half photons broadening = .ok result) :
    spectrum model solve other points half photons broadening = .ok result := by
  unfold spectrum at h ⊢
  by_cases hempty : photons.isEmpty = true
  · rw [if_pos hempty] at h ⊢
    exact h
  · simp only [if_neg hempty, bind_eq_ok] at h ⊢
    obtain ⟨_, hvalid, rows, hrows, h⟩ := h
    exact ⟨_, hvalid, rows, Evaluator.evaluate_of_evaluate hrows, h⟩

/-- The spectrum does not depend on the number of workers. -/
theorem Conductivity.spectrum_of_spectrum {model : BandModel α} {solve : Solver α}
    {evaluator other : Evaluator} {points : List (KPoint α)} {half : ℕ} {photons : List α}
    {eta : α} {result : ConductivitySpectrum α}
    (h : spectrum model solve evaluator points half photons eta = .ok result) :
    spectrum model solve other points half photons eta = .ok result := by
  unfold spectrum at h ⊢
  by_cases hempty : photons.isEmpty = true
  · rw [if_pos hempty] at h ⊢
    exact h
  · simp only [if_neg hempty, bind_eq_ok] at h ⊢
    obtain ⟨_, hvalid, rows, hrows, h⟩ := h
    exact ⟨_, hvalid, rows, Evaluator.evaluate_of_evaluate hrows, h⟩

namespace TaskContext

variable (ctx : TaskContext α)

/-- The fields of a key behind the density of points. -/
def detail : Quantity → List String
  | .energies | .bands => [Int.repr ctx.window.lower, Int.repr ctx.window.upper]
  | .absorption => ["half" ++ Nat.repr ctx.half, "delta" ++ Number.text ctx.broadening]
  | .conductivity => ["half" ++ Nat.repr ctx.half, "eta" ++ Number.text ctx.eta]
  | .raman =>
      ["half" ++ Nat.repr ctx.half, "inner" ++ Nat.repr (ctx.raman.inner.getD ctx.half),
        "e" ++ Number.text ctx.raman.photonEnergy, "ph" ++ Number.text ctx.raman.phononEnergy,
        "g" ++ Number.text ctx.raman.gamma]

/-- The key of a quantity, put together from its fields. -/
def key (quantity : Quantity) (density : ℕ) : String :=
  resultKey ctx.bands quantity.text density ++
    String.join ((ctx.detail quantity).map ("_" ++ ·))

/-- The key of the energies is the one of their quantity. -/
theorem windowKey_energies (density : ℕ) :
    ctx.windowKey "energies" density = ctx.key .energies density := by
  apply String.toList_inj.mp
  simp [windowKey, key, detail, Quantity.text, toString_text]

/-- The key of the bands is the one of their quantity. -/
theorem windowKey_bands (density : ℕ) :
    ctx.windowKey "bands" density = ctx.key .bands density := by
  apply String.toList_inj.mp
  simp [windowKey, key, detail, Quantity.text, toString_text]

/-- The key of the absorption is the one of its quantity. -/
theorem absorptionKey_eq : ctx.absorptionKey = ctx.key .absorption ctx.kpNum := by
  apply String.toList_inj.mp
  simp [absorptionKey, key, detail, Quantity.text, toString_text]

/-- The key of the conductivity is the one of its quantity. -/
theorem conductivityKey_eq : ctx.conductivityKey = ctx.key .conductivity ctx.kpNum := by
  apply String.toList_inj.mp
  simp [conductivityKey, key, detail, Quantity.text, toString_text]

/-- The key of the Raman terms is the one of their quantity. -/
theorem ramanKey_eq (points : ℕ) : ctx.ramanKey points = ctx.key .raman points := by
  apply String.toList_inj.mp
  simp [ramanKey, key, detail, Quantity.text, toString_text]

/-- What a quantity adds to its key are fields. -/
theorem isField_detail [KeyLaws α] (quantity : Quantity) :
    ∀ text ∈ ctx.detail quantity, IsField text := by
  have hcount (name : String) (hname : IsField name) (n : ℕ) : IsField (name ++ Nat.repr n) :=
    hname.append (Layout.isField_repr n)
  have hnumber (name : String) (hname : IsField name) (x : α) : IsField (name ++ Number.text x) :=
    hname.append (KeyLaws.isField_text x)
  cases quantity with
  | energies | bands =>
      simpa [detail] using ⟨isField_intRepr _, isField_intRepr _⟩
  | absorption | conductivity =>
      simpa [detail] using ⟨hcount "half" (by decide) _, hnumber _ (by decide) _⟩
  | raman =>
      simpa [detail] using ⟨hcount "half" (by decide) _, hcount "inner" (by decide) _,
        hnumber "e" (by decide) _, hnumber "ph" (by decide) _, hnumber "g" (by decide) _⟩

/-- The fields of a key are those of the model, then the quantity, the angle, the density and what
the quantity adds. -/
theorem fields_key [KeyLaws α] (quantity : Quantity) (density : ℕ) :
    fields (ctx.key quantity density) = fields ctx.bands.name ++
      ([quantity.text, Number.fixed 4 ctx.bands.twistAngle, "density", Nat.repr density] ++
        ctx.detail quantity).map String.toList := by
  rw [key, fields_append_join _ (ctx.isField_detail quantity), fields_resultKey,
    List.append_assoc, List.map_append]
  rfl

/-- There are two names of models. -/
theorem bands_name : ctx.bands.name = "continuum" ∨ ctx.bands.name = "tight_binding" := by
  unfold bands
  cases ctx.model with
  | continuum model => exact Or.inl rfl
  | tightBinding model => exact Or.inr rfl

/-- A key is a single name of a path. -/
theorem slash_notMem_key [KeyLaws α] (quantity : Quantity) (density : ℕ) :
    '/' ∉ (ctx.key quantity density).toList := by
  have hname : '/' ∉ ctx.bands.name.toList := by
    rcases ctx.bands_name with hname | hname <;> rw [hname] <;> decide
  have hquantity : '/' ∉ quantity.text.toList := quantity.isField_text.notMem rfl
  have hangle : '/' ∉ (Number.fixed 4 ctx.bands.twistAngle).toList :=
    (KeyLaws.isField_fixed 4 _).notMem rfl
  have hdensity : '/' ∉ Nat.toDigits 10 density := by
    rw [← Nat.toList_repr]
    exact (Layout.isField_repr density).notMem rfl
  have hdetail : ∀ text ∈ ctx.detail quantity, '/' ∉ text.toList :=
    fun text htext ↦ (ctx.isField_detail quantity text htext).notMem rfl
  simpa [key, resultKey, toString_text, hname, hquantity, hangle, hdensity] using hdetail

variable {ctx} {ctx' : TaskContext α}

/-- A key tells the name of the model, its angle to four decimals, what is stored, the density of
points, and the fields behind it. -/
theorem key_inj [KeyLaws α] {quantity quantity' : Quantity} {density density' : ℕ}
    (h : ctx.key quantity density = ctx'.key quantity' density') :
    ctx.bands.name = ctx'.bands.name ∧
      Number.fixed 4 ctx.bands.twistAngle = Number.fixed 4 ctx'.bands.twistAngle ∧
      quantity = quantity' ∧ density = density' ∧ ctx.detail quantity = ctx'.detail quantity' := by
  have hfields := congrArg fields h
  rw [fields_key, fields_key] at hfields
  have hcontinuum : fields "continuum" = ["continuum".toList] := by decide
  have htight : fields "tight_binding" = ["tight".toList, "binding".toList] := by decide
  have hname : ctx.bands.name = ctx'.bands.name := by
    obtain hname | hname := ctx.bands_name <;> obtain hname' | hname' := ctx'.bands_name <;>
      rw [hname, hname'] at hfields ⊢ <;> simp [hcontinuum, htight] at hfields
  rw [hname, List.append_cancel_left_eq] at hfields
  have htexts := List.map_injective_iff.mpr (fun _ _ ↦ String.toList_injective) hfields
  simp only [List.cons_append, List.nil_append, List.cons.injEq] at htexts
  obtain ⟨hquantity, hangle, -, hdensity, hdetail⟩ := htexts
  exact ⟨hname, hangle, Quantity.text_injective hquantity, Nat.repr_injective hdensity, hdetail⟩

/-- A computation that a context carries out to store a quantity under its key. -/
inductive Stores (ctx : TaskContext α) : Quantity → ℕ → Logged (List (List α)) → Prop
  | energies {density : ℕ} (h : density = ctx.kpNum) :
      Stores ctx .energies density ctx.energiesOverGrid
  | bands {density : ℕ} {path : KPath α}
      (hpath : ctx.model.defaultPath.sample ctx.density true = .ok path)
      (h : density = path.length) : Stores ctx .bands density (ctx.energiesAlong path)
  | absorption {density : ℕ} (h : density = ctx.kpNum) :
      Stores ctx .absorption density ctx.absorptionRows
  | conductivity {density : ℕ} (h : density = ctx.kpNum) :
      Stores ctx .conductivity density ctx.conductivityRows
  | raman {density : ℕ} {path : KPath α}
      (hpath : ctx.model.ramanPath.sample ctx.density false = .ok path)
      (h : density = path.length) : Stores ctx .raman density (ctx.ramanRows path.points)

/-- The two contexts have the same bands and paths and the same eigensolver, as far as the quantity
depends on them. -/
structure Alike (quantity : Quantity) (ctx ctx' : TaskContext α) : Prop where
  bands : { ctx.bands with intervalK := ctx'.bands.intervalK } = ctx'.bands
  intervalK : quantity.IsOptical → ctx.bands.intervalK = ctx'.bands.intervalK
  defaultPath : ctx.model.defaultPath = ctx'.model.defaultPath
  ramanPath : ctx.model.ramanPath = ctx'.model.ramanPath
  solve : ctx.solve = ctx'.solve

/-- For an optical quantity the bands are the same without exception. -/
theorem Alike.bands_eq {quantity : Quantity} (h : Alike quantity ctx ctx')
    (hquantity : quantity.IsOptical) : ctx.bands = ctx'.bands := by
  rw [← h.bands, ← h.intervalK hquantity]

/-- Energies at a point do not depend on the step of finite differences. -/
theorem Alike.windowAt_eq {quantity : Quantity} (h : Alike quantity ctx ctx') :
    windowAt ctx.bands ctx.solve = windowAt ctx'.bands ctx'.solve := by
  rw [← h.bands, h.solve]
  rfl

/-- The reciprocal vectors of the grid are the same. -/
theorem Alike.gridVectors_eq {quantity : Quantity} (h : Alike quantity ctx ctx') :
    ctx.bands.gridVectors = ctx'.bands.gridVectors := by
  rw [← h.bands]

/-- With bands on each side, whether Raman amplitudes are refused follows from the numbers of bands
that stand in their key. -/
theorem validate_raman (hhalf : ctx.half ≠ 0) (points : List (KPoint α)) :
    Raman.validate points ctx.raman = (do
      if points.isEmpty then refuse "k_points" "Raman sum needs at least one k-point"
      let count := ctx.raman.inner.getD ctx.half
      if count = 0 ∨ count > ctx.half then
        refuse "inner_transitions" s!"{count} is not in 1..={ctx.half}") := by
  unfold Raman.validate
  cases hinner : ctx.raman.inner with
  | none =>
      have hallowed : ¬ (ctx.half = 0 ∨ ctx.half > ctx.half) := by omega
      simp only [Option.getD_none, if_neg hallowed]
  | some inner => rfl

/-- The key of Raman amplitudes determines whether they are refused, but for a sum without bands. -/
theorem validate_raman_eq (hhalf : ctx.half = ctx'.half)
    (hcount : ctx.raman.inner.getD ctx.half = ctx'.raman.inner.getD ctx'.half)
    (hinner : ctx.half = 0 → ctx.raman.inner = ctx'.raman.inner) (points : List (KPoint α)) :
    Raman.validate points ctx.raman = Raman.validate points ctx'.raman := by
  by_cases hzero : ctx.half = 0
  · have hhalf' : ctx.raman.half = ctx'.raman.half := hhalf
    simp only [Raman.validate, hinner hzero, hhalf']
  · rw [validate_raman hzero, validate_raman (hhalf ▸ hzero), hcount, hhalf]

/-- The detail of a Raman key tells all the parameters of the terms. -/
theorem raman_of_detail [KeyLaws α] (hdetail : ctx.detail .raman = ctx'.detail .raman) :
    ctx.half = ctx'.half ∧ ctx.raman.inner.getD ctx.half = ctx'.raman.inner.getD ctx'.half ∧
      ctx.raman.photonEnergy = ctx'.raman.photonEnergy ∧
      ctx.raman.phononEnergy = ctx'.raman.phononEnergy ∧ ctx.raman.gamma = ctx'.raman.gamma := by
  simpa [detail, Nat.repr_inj, KeyLaws.text_injective.eq_iff] using hdetail

/-- Among unambiguous requests the key of a sum without bands determines the number of inner
bands. -/
theorem inner_eq_of_unambiguous [KeyLaws α] (hparams : ctx.params.Unambiguous)
    (hparams' : ctx'.params.Unambiguous) (hdetail : ctx.detail .raman = ctx'.detail .raman)
    (hzero : ctx.half = 0) : ctx.raman.inner = ctx'.raman.inner := by
  obtain ⟨hhalf, hcount, -⟩ := raman_of_detail hdetail
  have hinner : ∀ {other : TaskContext α}, other.params.Unambiguous → other.half = 0 →
      other.raman.inner ≠ some 0 := by
    intro other hother hnone hsome
    have hnum : other.params.numHalf = some 0 := by
      unfold half at hnone
      cases hcase : other.params.numHalf <;> simp_all
    exact hother ⟨hnum, hsome⟩
  have hfirst := hinner hparams hzero
  have hsecond := hinner hparams' (hhalf ▸ hzero)
  rw [← hhalf, hzero] at hcount
  cases hcase : ctx.raman.inner <;> cases hcase' : ctx'.raman.inner <;> simp_all

/-- The key of Raman amplitudes determines what they are, whether the number of inner bands is left
out or given. -/
theorem reproduces_ramanRows [KeyLaws α] (hbands : ctx.bands = ctx'.bands)
    (hsolve : ctx.solve = ctx'.solve) (hdetail : ctx.detail .raman = ctx'.detail .raman)
    (hinner : ctx.half = 0 → ctx.raman.inner = ctx'.raman.inner) (points : List (KPoint α)) :
    Reproduces (ctx.ramanRows points) (ctx'.ramanRows points) := by
  obtain ⟨hhalf, hcount, hphoton, hphonon, hgamma⟩ := raman_of_detail hdetail
  have hterms : Raman.terms ctx.bands ctx.solve ctx.raman =
      Raman.terms ctx'.bands ctx'.solve ctx'.raman := by
    funext k
    show (do
      let list ← transitions ctx.bands ctx.solve ctx.half k
      return (list.filter fun (t : Transition α) ↦ t.valence ≤ ctx.raman.inner.getD ctx.half &&
        t.conduction ≤ ctx.raman.inner.getD ctx.half).map (Raman.term ctx.raman)) = _
    rw [hcount, hhalf, Raman.term_congr hphoton hphonon hgamma, hbands, hsolve]
    rfl
  have hvalidate := validate_raman_eq hhalf hcount hinner points
  refine Reproduces.bind (reproduces_outcome fun _ h ↦ hvalidate ▸ h) fun _ ↦
    (reproduces_say _ _).bind fun _ ↦ (reproduces_say _ _).bind fun _ ↦
      Reproduces.bind (reproduces_outcome fun rows h ↦ ?_) fun _ ↦
        Reproduces.bind (reproduces_outcome fun _ h ↦ h) fun _ ↦ fun _ _ _ h ↦ h
  rw [Raman.termRows, hvalidate, hterms, bind_eq_ok] at h
  rw [Raman.termRows, bind_eq_ok]
  obtain ⟨_, hvalid, hrows⟩ := h
  exact ⟨_, hvalid, Evaluator.evaluate_of_evaluate hrows⟩

/-- Energies over the grid are the same in two contexts with the same window and density. -/
theorem reproduces_energiesOverGrid {quantity : Quantity} (halike : Alike quantity ctx ctx')
    (hwindow : ctx.window = ctx'.window) (hkpNum : ctx.kpNum = ctx'.kpNum) :
    Reproduces ctx.energiesOverGrid ctx'.energiesOverGrid := by
  have hgrid : ctx.grid = ctx'.grid := by rw [grid, grid, halike.gridVectors_eq, hkpNum]
  refine Reproduces.bind (reproduces_outcome fun _ h ↦ hgrid ▸ h) fun points ↦
    (reproduces_say _ _).bind fun _ ↦ reproduces_outcome fun rows h ↦ ?_
  rw [bandEnergies, halike.windowAt_eq, hwindow] at h
  exact Evaluator.evaluate_of_evaluate h

/-- Energies along a path are the same in two contexts with the same window. -/
theorem reproduces_energiesAlong {quantity : Quantity} (halike : Alike quantity ctx ctx')
    (hwindow : ctx.window = ctx'.window) (path : KPath α) :
    Reproduces (ctx.energiesAlong path) (ctx'.energiesAlong path) := by
  refine (reproduces_say _ _).bind fun _ ↦ reproduces_outcome fun rows h ↦ ?_
  rw [pathEnergies, halike.windowAt_eq, hwindow] at h
  exact h

/-- The absorption rows are the same in two contexts that agree on what they depend on. -/
theorem reproduces_absorptionRows (hbands : ctx.bands = ctx'.bands)
    (hsolve : ctx.solve = ctx'.solve) (hkpNum : ctx.kpNum = ctx'.kpNum)
    (hphotons : ctx.photons = ctx'.photons) (hhalf : ctx.half = ctx'.half)
    (hbroadening : ctx.broadening = ctx'.broadening) :
    Reproduces ctx.absorptionRows ctx'.absorptionRows := by
  have hgrid : ctx.grid = ctx'.grid := by rw [grid, grid, hbands, hkpNum]
  unfold absorptionRows
  rw [hgrid, hphotons, hbroadening]
  refine Reproduces.bind (reproduces_outcome fun _ h ↦ h) fun points ↦ ?_
  have htable : ∀ rows, ctx.absorptionTable points = .ok rows →
      ctx'.absorptionTable points = .ok rows := by
    intro rows h
    rw [absorptionTable, hbands, hsolve, hhalf, hphotons, hbroadening, bind_eq_ok] at h
    obtain ⟨spectrum, hspectrum, h⟩ := h
    rw [absorptionTable, bind_eq_ok]
    exact ⟨spectrum, Absorption.spectrum_of_spectrum hspectrum, h⟩
  split
  · exact Reproduces.bind (reproduces_outcome fun _ h ↦ h) fun _ ↦ (reproduces_say _ _).bind fun _ ↦
      (reproduces_say _ _).bind fun _ ↦ reproduces_outcome htable
  · exact reproduces_outcome htable

/-- The conductivity rows are the same in two contexts that agree on what they depend on. -/
theorem reproduces_conductivityRows (hbands : ctx.bands = ctx'.bands)
    (hsolve : ctx.solve = ctx'.solve) (hkpNum : ctx.kpNum = ctx'.kpNum)
    (hphotons : ctx.photons = ctx'.photons) (hhalf : ctx.half = ctx'.half)
    (heta : ctx.eta = ctx'.eta) : Reproduces ctx.conductivityRows ctx'.conductivityRows := by
  have hgrid : ctx.grid = ctx'.grid := by rw [grid, grid, hbands, hkpNum]
  unfold conductivityRows
  rw [hgrid, hphotons, heta]
  refine Reproduces.bind (reproduces_outcome fun _ h ↦ h) fun points ↦ ?_
  have htable : ∀ rows, ctx.conductivityTable points = .ok rows →
      ctx'.conductivityTable points = .ok rows := by
    intro rows h
    rw [conductivityTable, hbands, hsolve, hhalf, hphotons, heta, bind_eq_ok] at h
    obtain ⟨spectrum, hspectrum, h⟩ := h
    rw [conductivityTable, bind_eq_ok]
    exact ⟨spectrum, Conductivity.spectrum_of_spectrum hspectrum, h⟩
  split
  · exact Reproduces.bind (reproduces_outcome fun _ h ↦ h) fun _ ↦ (reproduces_say _ _).bind fun _ ↦
      reproduces_outcome htable
  · exact reproduces_outcome htable

/-- A key determines what is computed, together with the photon energies of spectra and the number
of inner bands of a Raman sum without bands. -/
theorem Stores.reproduces [KeyLaws α] {quantity : Quantity} {density : ℕ}
    {compute compute' : Logged (List (List α))} (h : Stores ctx quantity density compute)
    (h' : Stores ctx' quantity density compute') (halike : Alike quantity ctx ctx')
    (hdetail : ctx.detail quantity = ctx'.detail quantity)
    (hphotons : quantity.IsSpectral → ctx.photons = ctx'.photons)
    (hinner : quantity = .raman → ctx.half = 0 → ctx.raman.inner = ctx'.raman.inner) :
    Reproduces compute compute' := by
  cases h with
  | energies hn =>
      cases h' with
      | energies hn' =>
          exact reproduces_energiesOverGrid halike (window_eq_of_repr hdetail) (hn.symm.trans hn')
  | bands hpath hn =>
      cases h' with
      | bands hpath' hn' =>
          rw [halike.defaultPath] at hpath
          obtain rfl := HighSymmetryPath.sample_eq_of_length_eq (KeyLaws.denser_total _ _) hpath
            hpath' (hn.symm.trans hn')
          exact reproduces_energiesAlong halike (window_eq_of_repr hdetail) _
  | absorption hn =>
      cases h' with
      | absorption hn' =>
          obtain ⟨hhalf, hbroadening⟩ :
              ctx.half = ctx'.half ∧ ctx.broadening = ctx'.broadening := by
            simpa [detail, Nat.repr_inj, KeyLaws.text_injective.eq_iff] using hdetail
          exact reproduces_absorptionRows (halike.bands_eq (by decide)) halike.solve
            (hn.symm.trans hn') (hphotons (by decide)) hhalf hbroadening
  | conductivity hn =>
      cases h' with
      | conductivity hn' =>
          obtain ⟨hhalf, heta⟩ : ctx.half = ctx'.half ∧ ctx.eta = ctx'.eta := by
            simpa [detail, Nat.repr_inj, KeyLaws.text_injective.eq_iff] using hdetail
          exact reproduces_conductivityRows (halike.bands_eq (by decide)) halike.solve
            (hn.symm.trans hn') (hphotons (by decide)) hhalf heta
  | raman hpath hn =>
      cases h' with
      | raman hpath' hn' =>
          rw [halike.ramanPath] at hpath
          obtain rfl := HighSymmetryPath.sample_eq_of_length_eq (KeyLaws.denser_total _ _) hpath
            hpath' (hn.symm.trans hn')
          exact reproduces_ramanRows (halike.bands_eq (by decide)) halike.solve hdetail (hinner rfl)
            _

end TaskContext

end Moire
