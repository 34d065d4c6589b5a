import Mathlib
import Moire.Json.Form

/-!
# What is assumed of a form of documents

A form of documents may be any that meets three assumptions. It reads finite reals as they were
written, `Form.ReadsFinite`, it writes null for a real that is not finite, `Form.WritesNull`, and it
takes null for no real, but for a missing one where a real may be missing, `Form.RefusesNull`. A
document then comes back with `null` in place of its reals that are not finite, `readBack`, which is
`Form.read?_write`.
-/

namespace Moire.Json

/-! ## What is read back -/

mutual

/-- A document as it is read back, with null for the reals that are not finite. -/
def readBack : Json → Json
  | .real x => if x.isFinite then .real x else .null
  | .array items => .array (readBackItems items)
  | .object members => .object (readBackMembers members)
  | .unreadable => .unreadable
  | .null => .null
  | .bool value => .bool value
  | .integer n => .integer n
  | .string text => .string text

/-- The items of an array as they are read back. -/
def readBackItems : List Json → List Json
  | [] => []
  | item :: rest => readBack item :: readBackItems rest

/-- The members of an object as they are read back. -/
def readBackMembers : List (String × Json) → List (String × Json)
  | [] => []
  | (name, value) :: rest => (name, readBack value) :: readBackMembers rest

end

/-- The items of an array are read back each on its own. -/
theorem readBackItems_eq (items : List Json) : readBackItems items = items.map readBack := by
  induction items with
  | nil => rfl
  | cons item rest ih => rw [readBackItems, ih, List.map_cons]

/-- The members of an object are read back each on its own. -/
theorem readBackMembers_eq (members : List (String × Json)) :
    readBackMembers members = members.map fun member ↦ (member.1, member.2.readBack) := by
  induction members with
  | nil => rfl
  | cons member rest ih => rw [readBackMembers, ih, List.map_cons]

/-- The whole numbers of the signed and of the unsigned 64-bit integers. -/
def IsWord (n : ℤ) : Prop := -9223372036854775808 ≤ n ∧ n < 18446744073709551616

/-- Every whole number in the document is of the 64-bit ranges, and all its texts can be read. -/
inductive Fits : Json → Prop
  | null : Fits .null
  | bool (value : Bool) : Fits (.bool value)
  | integer {n : ℤ} (h : IsWord n) : Fits (.integer n)
  | real (x : Float) : Fits (.real x)
  | string (text : String) : Fits (.string text)
  | array {items : List Json} (h : ∀ item ∈ items, Fits item) : Fits (.array items)
  | object {members : List (String × Json)} (h : ∀ member ∈ members, Fits member.2) :
      Fits (.object members)

/-- What is read back fits as well. -/
theorem Fits.readBack {v : Json} (h : v.Fits) : v.readBack.Fits := by
  induction h with
  | real x =>
      rw [Json.readBack]
      split
      · exact .real x
      · exact .null
  | @array items _ ih =>
      rw [Json.readBack, readBackItems_eq]
      exact .array (List.forall_mem_map.mpr ih)
  | @object members _ ih =>
      rw [Json.readBack, readBackMembers_eq]
      exact .object (List.forall_mem_map.mpr ih)
  | null => exact .null
  | bool value => exact .bool value
  | integer h => exact .integer h
  | string text => exact .string text

/-- A document that was read back once has only finite reals and is read back unchanged. -/
theorem Fits.readBack_readBack {v : Json} (h : v.Fits) : v.readBack.readBack = v.readBack := by
  induction h with
  | real x =>
      by_cases hx : x.isFinite = true
      · simp only [Json.readBack, if_pos hx]
      · simp only [Json.readBack, if_neg hx]
  | @array items _ ih =>
      simp only [Json.readBack, readBackItems_eq, List.map_map]
      exact congrArg Json.array (List.map_congr_left ih)
  | @object members _ ih =>
      simp only [Json.readBack, readBackMembers_eq, List.map_map]
      exact congrArg Json.object (List.map_congr_left fun member hmember ↦
        congrArg (Prod.mk member.1) (ih member hmember))
  | null | bool | integer | string => rfl

/-! ## Assumptions on a form -/

namespace Form

variable {form : Form}

/-- Finite reals are read as they were written: by themselves, where one may be missing, and in a
document that has no others. -/
structure ReadsFinite (form : Form) : Prop where
  document {v : Json} (hv : v.Fits) (hfinite : v.readBack = v) :
    form.read? (form.write v) = some v
  real {x : Float} (hx : x.isFinite = true) : form.real? (.real x) = some x
  optionalReal {x : Float} (hx : x.isFinite = true) :
    form.optionalReal? (.real x) = some (some x)

/-- A real that is not finite is written as null. -/
def WritesNull (form : Form) : Prop :=
  ∀ v : Json, v.Fits → form.write v = form.write v.readBack

/-- Null is refused for a real and read as a missing one where it may be missing. -/
structure RefusesNull (form : Form) : Prop where
  real : form.real? .null = none
  optionalReal : form.optionalReal? .null = some none

/-- A document comes back with null for its reals that are not finite. -/
theorem read?_write (hfinite : form.ReadsFinite) (hnull : form.WritesNull) {v : Json}
    (hv : v.Fits) : form.read? (form.write v) = some v.readBack := by
  rw [hnull v hv]
  exact hfinite.document hv.readBack hv.readBack_readBack

/-- A real comes back just if it is finite. -/
theorem real?_readBack (hfinite : form.ReadsFinite) (hnull : form.RefusesNull) (x : Float) :
    form.real? (Json.real x).readBack = Option.guard Float.isFinite x := by
  rw [readBack, Option.guard]
  split
  next hx => exact hfinite.real hx
  next => exact hnull.real

/-- A real that may be missing comes back as missing if it is not finite. -/
theorem optionalReal?_readBack (hfinite : form.ReadsFinite) (hnull : form.RefusesNull)
    (x : Option Float) :
    form.optionalReal? (optional .real x).readBack = some (x.filter Float.isFinite) := by
  cases x with
  | none => exact hnull.optionalReal
  | some x =>
      rw [optional, readBack, Option.filter_some]
      split
      next hx => exact hfinite.optionalReal hx
      next => exact hnull.optionalReal

end Form

end Moire.Json
