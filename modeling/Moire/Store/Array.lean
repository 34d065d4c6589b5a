import Moire.Number
import Moire.Word

/-!
# Stored arrays

Results are stored as flat lists of numbers with a shape. `StoredArray.ofRows` packs a table whose
rows are equally long, and `StoredArray.toRows` unpacks it. An array that comes out of a file may
have a shape that does not fit its numbers.
-/

namespace Moire

/-- Numbers in row-major order with a shape. -/
structure StoredArray (α : Type) where
  shape : List Nat
  data : List α
  deriving Repr, Inhabited

/-- Cut a list into pieces of a given positive width; the last one may be shorter. -/
def chunksOf {β : Type} (width : Nat) : List β → List (List β)
  | [] => []
  | item :: rest =>
      if width = 0 then []
      else (item :: rest.take (width - 1)) :: chunksOf width (rest.drop (width - 1))
termination_by items => items.length
decreasing_by
  simp only [List.length_drop, List.length_cons]
  omega

namespace StoredArray

variable {α : Type}

/-- How a shape reads in messages. -/
def shapeText (shape : List Nat) : String :=
  "[" ++ ", ".intercalate (shape.map Nat.repr) ++ "]"

/-- An array whose shape fits its data. -/
def create (shape : List Nat) (data : List α) : Outcome (StoredArray α) := do
  let expected ← shape.foldlM mulCount 1
  if expected ≠ data.length then
    fail (.dimensionMismatch ("cached array of shape " ++ shapeText shape) expected data.length)
  return ⟨shape, data⟩

/-- Pack a table of equally long rows. -/
def ofRows (rows : List (List α)) : Outcome (StoredArray α) := do
  let width := (rows.head?.map List.length).getD 0
  match rows.find? fun row ↦ row.length ≠ width with
  | some row => fail (.dimensionMismatch "cached rows" width row.length)
  | none => create [rows.length, width] rows.flatten

/-- The bytes that an empty row takes. -/
def rowSize : Nat := 24

/-- Unpack a table. -/
def toRows (array : StoredArray α) : Outcome (List (List α)) :=
  match array.shape with
  | [count, 0] => do
      reserve count rowSize
      return List.replicate count []
  | [_, width] => return chunksOf width array.data
  | shape => fail (.dimensionMismatch "cached array rank" 2 shape.length)

end StoredArray

end Moire
