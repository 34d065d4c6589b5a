import Mathlib
import Moire.Proofs.DocumentForms
import Moire.Report.Document

/-!
# Records are read back from documents

`Recovers` says what a kind of value comes back as after it was written to a document and read: it
is the value if its reals are finite, and nothing otherwise, as long as its whole numbers fit their
words. It holds of numbers and texts, and with a kind of value of the lists of it. A record is read
from its fields by `fields?_readBack`, each of which is there once.
-/

namespace Moire.Json

/-! ## Kinds of values -/

variable {form : Form}

/-- A guard goes on with the value when it holds. -/
theorem guard_bind {β γ : Type} (p : β → Bool) (v : β) (next : β → Option γ) :
    (Option.guard p v).bind next = if p v then next v else none := by
  rw [Option.guard]
  split <;> rfl

/-- Two tests that give nothing otherwise are one test. -/
theorem ite_and_none {γ : Type} (p q : Bool) (result : Option γ) :
    (if p then if q then result else none else none) = if p && q then result else none := by
  cases p <;> rfl

/-- A test that gives nothing otherwise may be made first. -/
theorem ite_bind_none {β γ : Type} (p : Bool) (v : Option β) (next : β → Option γ) :
    (if p then v else none).bind next = if p then v.bind next else none := by
  cases p <;> rfl

/-- A value that fits its words comes back just if it is finite. -/
structure Recovers {β : Type} (encode : β → Json) (decode : Json → Option β)
    (sized finite : β → Bool) : Prop where
  fits {v : β} (h : sized v) : (encode v).Fits
  reads {v : β} (h : sized v) : decode (encode v).readBack = Option.guard finite v

/-- A real comes back in a form that reads finite reals and refuses null. -/
theorem recovers_real (hfinite : form.ReadsFinite) (hnull : form.RefusesNull) :
    Recovers Json.real form.real? (fun _ ↦ true) Float.isFinite where
  fits _ := .real _
  reads {x} _ := Form.real?_readBack hfinite hnull x

/-- A text comes back. -/
theorem recovers_string : Recovers Json.string string? (fun _ ↦ true) fun _ ↦ true where
  fits _ := .string _
  reads _ := rfl

/-- The whole numbers of a word, if they are of the 64-bit ranges. -/
theorem recovers_intIn {word : Word} (hlow : -9223372036854775808 ≤ word.lowest)
    (hhigh : word.highest < 18446744073709551616) :
    Recovers Json.integer (intIn? word) word.holds fun _ ↦ true where
  fits {n} h := by
    simp only [Word.holds, Bool.and_eq_true, decide_eq_true_eq] at h
    exact .integer ⟨by omega, by omega⟩
  reads {n} h := by
    show (some n).filter word.holds = some n
    rw [Option.filter_some, if_pos h]

/-- The number is one that counts. -/
def isCount (n : ℕ) : Bool := Word.unsigned64.holds n

/-- A count comes back when it is of the word. -/
theorem recovers_count : Recovers count count? isCount fun _ ↦ true where
  fits h := (recovers_intIn (by decide) (by decide)).fits h
  reads {n} h := by
    show (intIn? Word.unsigned64 (Json.integer n).readBack).map Int.toNat = some n
    rw [(recovers_intIn (by decide) (by decide)).reads h]
    rfl

section

variable {β : Type} {encode : β → Json} {decode : Json → Option β} {sized finite : β → Bool}

/-- A list comes back if all its items do. -/
theorem Recovers.list (h : Recovers encode decode sized finite) :
    Recovers (fun values ↦ .array (values.map encode)) (list? decode) (List.all · sized)
      (List.all · finite) where
  fits {values} hsized := by
    refine .array fun item hitem ↦ ?_
    obtain ⟨v, hv, rfl⟩ := List.mem_map.mp hitem
    exact h.fits (List.all_eq_true.mp hsized v hv)
  reads {values} hsized := by
    show list? decode (Json.array (values.map encode)).readBack = _
    rw [readBack, readBackItems_eq, List.map_map, list?]
    induction values with
    | nil => rfl
    | cons v rest ih =>
        obtain ⟨hv, hrest⟩ := Bool.and_eq_true_iff.mp hsized
        rw [List.map_cons, List.mapM_cons, ih hrest, Function.comp_apply, h.reads hv]
        simp only [Option.bind_eq_bind, guard_bind, Option.pure_def, ite_and_none]
        rfl

/-- The same, for fewer values and with finiteness said in another way. -/
theorem Recovers.mono (h : Recovers encode decode sized finite) {fewer same : β → Bool}
    (hfewer : ∀ v, fewer v → sized v) (hsame : ∀ v, finite v = same v) :
    Recovers encode decode fewer same where
  fits hv := h.fits (hfewer _ hv)
  reads hv := by rw [h.reads (hfewer _ hv), Option.guard_congr hsame]

/-- A field that has to be there. -/
theorem Recovers.required (h : Recovers encode decode sized finite) {v : β} (hv : sized v) :
    Json.required decode (some (encode v).readBack) = Option.guard finite v :=
  h.reads hv

/-- A field that may be missing, of a kind that is not written as null. -/
theorem Recovers.nullable (h : Recovers encode decode sized finite)
    (hnull : ∀ v, (encode v).readBack ≠ .null) {v : Option β} (hv : v.all sized) :
    Json.nullable decode (some (optional encode v).readBack) =
      Option.guard (Option.all finite) v := by
  cases v with
  | none => rfl
  | some v =>
      have hread : Json.nullable decode (some (encode v).readBack) =
          (decode (encode v).readBack).map some := by
        unfold Json.nullable
        split <;> simp_all
      rw [optional, hread, h.reads hv, Option.map_guard]
      rfl

/-- An optional value fits when the value does. -/
theorem Recovers.optional_fits (h : Recovers encode decode sized finite) {v : Option β}
    (hv : v.all sized) : (optional encode v).Fits := by
  cases v with
  | none => exact .null
  | some v => exact h.fits hv

end

/-! ## Fields -/

/-- The field of an object under a name that stands there at most once. -/
def field? (members : List (String × Json)) (name : String) : Option (Option Json) :=
  match members.filter fun (key, _) ↦ key = name with
  | [] => some none
  | [(_, value)] => some (some value)
  | _ => none

/-- The fields of an object are looked up by their names. -/
theorem fields?_object (names : List String) (members : List (String × Json)) :
    fields? names (.object members) = names.mapM (field? members) := rfl

/-- Every name has its own value in a list of fields. -/
theorem filter_zip {names : List String} (hnames : names.Nodup) {values : List Json}
    {field : String × Json} (h : field ∈ names.zip values) :
    (names.zip values).filter (fun (key, _) ↦ key = field.1) = [field] := by
  induction names generalizing values with
  | nil => cases h
  | cons name names ih =>
      cases values with
      | nil => cases h
      | cons v values =>
          obtain ⟨hname, hrest⟩ := List.nodup_cons.mp hnames
          rw [List.zip_cons_cons] at h ⊢
          rcases List.mem_cons.mp h with rfl | h
          · have hnone : (names.zip values).filter (fun (key, _) ↦ key = name) = [] := by
              refine List.filter_eq_nil_iff.mpr fun other hother ↦ ?_
              have hkey := (List.of_mem_zip hother).1
              simp only [decide_eq_true_eq]
              rintro rfl
              exact hname hkey
            simp [hnone]
          · have hkey := (List.of_mem_zip h).1
            have hne : name ≠ field.1 := by
              rintro rfl
              exact hname hkey
            rw [List.filter_cons_of_neg (by simpa using hne)]
            exact ih hrest h

/-- What takes each name to the value beside it takes the names to the values. -/
theorem mapM_of_zip {α β γ : Type} {f : α → Option γ} {g : β → γ} {names : List α}
    {values : List β} (hlength : values.length = names.length)
    (h : ∀ field ∈ names.zip values, f field.1 = some (g field.2)) :
    names.mapM f = some (values.map g) := by
  induction names generalizing values with
  | nil =>
      obtain rfl := List.eq_nil_of_length_eq_zero hlength
      rfl
  | cons name names ih =>
      cases values with
      | nil => cases hlength
      | cons v values =>
          rw [List.zip_cons_cons, List.forall_mem_cons] at h
          rw [List.mapM_cons, h.1, ih (Nat.succ.inj hlength) h.2]
          rfl

/-- The fields of a record are read in their order. -/
theorem fields?_readBack {names : List String} (hnames : names.Nodup) {values : List Json}
    (hlength : values.length = names.length) :
    fields? names (Json.object (names.zip values)).readBack =
      some (values.map fun v ↦ some v.readBack) := by
  have hmembers : (names.zip values).map (fun member ↦ (member.1, member.2.readBack)) =
      names.zip (values.map readBack) := by
    rw [List.zip_map_right]
    rfl
  have hread : names.mapM (field? (names.zip (values.map readBack))) =
      some ((values.map readBack).map some) := by
    refine mapM_of_zip (by rw [List.length_map, hlength]) fun field hfield ↦ ?_
    rw [field?, filter_zip hnames hfield]
  rw [readBack, readBackMembers_eq, hmembers, fields?_object, hread, List.map_map]
  rfl

/-- A record fits if its fields do. -/
theorem fits_record (names : List String) {values : List Json} (h : ∀ v ∈ values, v.Fits) :
    (Json.object (names.zip values)).Fits :=
  .object fun _ hmember ↦ h _ (List.of_mem_zip hmember).2

/-- A record comes back if it is put together from its fields. -/
theorem recovers_record {β : Type} {sized finite : β → Bool} (names : List String)
    (values : β → List Json) {build : List (Option Json) → Option β} (hnames : names.Nodup)
    (hlength : ∀ v, (values v).length = names.length)
    (hfits : ∀ v, sized v → ∀ value ∈ values v, value.Fits)
    (hbuild : ∀ v, sized v →
      build ((values v).map fun value ↦ some value.readBack) = Option.guard finite v) :
    Recovers (fun v ↦ .object (names.zip (values v))) (fun value ↦ (value.fields? names).bind build)
      sized finite where
  fits {v} h := fits_record names (hfits v h)
  reads {v} h := by
    rw [fields?_readBack hnames (hlength v)]
    exact hbuild v h

/-! ## Lists of numbers and texts -/

theorem all_true {β : Type} (values : List β) : (values.all fun _ ↦ true) = true :=
  List.all_eq_true.mpr fun _ _ ↦ rfl

/-- A list of reals comes back just if all of them are finite. -/
theorem recovers_reals (hfinite : form.ReadsFinite) (hnull : form.RefusesNull) :
    Recovers reals (list? form.real?) (fun _ ↦ true) (List.all · Float.isFinite) :=
  (recovers_real hfinite hnull).list.mono (fun values _ ↦ all_true values) fun _ ↦ rfl

/-- A table of reals comes back just if all of them are finite. -/
theorem recovers_table (hfinite : form.ReadsFinite) (hnull : form.RefusesNull) :
    Recovers table form.table? (fun _ ↦ true)
      (List.all · fun row ↦ row.all Float.isFinite) :=
  (recovers_reals hfinite hnull).list.mono (fun rows _ ↦ all_true rows) fun _ ↦ rfl

/-- A list of counts comes back. -/
theorem recovers_counts :
    Recovers counts (list? count?) (List.all · isCount) (fun _ ↦ true) :=
  recovers_count.list.mono (fun _ h ↦ h) all_true

/-- A list of texts comes back. -/
theorem recovers_strings :
    Recovers strings (list? string?) (fun _ ↦ true) (fun _ ↦ true) :=
  recovers_string.list.mono (fun texts _ ↦ all_true texts) all_true

end Moire.Json
