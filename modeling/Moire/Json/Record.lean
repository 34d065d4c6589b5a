import Moire.Json.Basic
import Moire.Word

/-!
# Records in JSON

A record is written as an object with a member for each field. It is read from an object, whose
unknown members are ignored and whose known ones may stand there once, or from a list of all fields
in order. Whole numbers are read as reals, but reals not as whole numbers, and a real has to be
finite.
-/

namespace Moire.Json

/-- The values of given fields, as far as they are there. -/
def fields? (names : List String) : Json → Option (List (Option Json))
  | .object members =>
      names.mapM fun name ↦
        match members.filter fun (key, _) ↦ key = name with
        | [] => some none
        | [(_, value)] => some (some value)
        | _ => none
  | .array items => if items.length = names.length then some (items.map some) else none
  | _ => none

/-- A field that has to be there. -/
def required {β : Type} (read : Json → Option β) : Option Json → Option β
  | some value => read value
  | none => none

/-- A field that may be missing or null. -/
def nullable {β : Type} (read : Json → Option β) : Option Json → Option (Option β)
  | none => some none
  | some .null => some none
  | some value => (read value).map some

/-- A field that may be left out, with a reading of what stands there. -/
def omissible {β : Type} (read : Json → Option (Option β)) : Option Json → Option (Option β)
  | none => some none
  | some value => read value

/-- A whole number. -/
def int? : Json → Option Int
  | .integer n => some n
  | _ => none

/-- A whole number that a word holds. -/
def intIn? (word : Word) (value : Json) : Option Int :=
  value.int?.filter word.holds

/-- A count. -/
def count? (value : Json) : Option Nat :=
  (value.intIn? Word.unsigned64).map Int.toNat

/-- A finite real. -/
def real? : Json → Option Float
  | .integer n => some (Decimal.toFloat (n < 0) ⟨n.natAbs, 0⟩)
  | .real x => if x.isFinite then some x else none
  | _ => none

/-- A text. -/
def string? : Json → Option String
  | .string text => some text
  | _ => none

/-- A truth value. -/
def bool? : Json → Option Bool
  | .bool value => some value
  | _ => none

/-- A list. -/
def list? {β : Type} (read : Json → Option β) : Json → Option (List β)
  | .array items => items.mapM read
  | _ => none

/-- A list of two. -/
def pair? {β : Type} (read : Json → Option β) : Json → Option (β × β)
  | .array [x, y] => do return (← read x, ← read y)
  | _ => none

end Moire.Json
