import Moire.Pickle.Machine
import Moire.Store.Array

/-!
# Stored arrays from pickles

A stored array is a dictionary with the entries `shape` and `data`, whose other entries do not
matter as long as they are values, or a list of which these are the first two. Whole numbers count
as floats in the data, but not the other way round in the shape. Tuples and sets count as lists.

Items are read after the machine has stopped. A kept item may be read as often as it was fetched,
and not while it is being read.
-/

namespace Moire.Pickle

/-- A computation on items that uses up the references into the memo. -/
abbrev Reading := StateT Memo Option

/-- Read an item, or the kept item that it refers to. -/
def Item.read {β : Type} (item : Item) (use : Item → Reading β) : Reading β := do
  match item with
  | .kept id =>
      match (← get)[id]? with
      | none => failure
      | some (found, count) =>
          modify (·.erase id)
          let result ← use found
          if 1 < count then modify (·.insert id (found, count - 1))
          return result
  | item => use item

/-- A whole number that fits a signed 64-bit word. -/
def Item.int? : Item → Option Int
  | .int n | .long n => if Word.signed64.holds n then some n else none
  | _ => none

/-- The items of a list, a tuple or a set. -/
def Item.items? : Item → Option (List Item)
  | .list items | .tuple items | .set items | .frozenset items => some items
  | _ => none

/-- A size: a whole number that is not negative. -/
def Item.size (item : Item) : Reading Nat :=
  item.read fun item ↦ do
    let n ← item.int?
    if 0 ≤ n then return n.toNat else failure

/-- A float, or a whole number. -/
def Item.float (item : Item) : Reading Float :=
  item.read fun item ↦ do
    match item with
    | .real x => return x
    | item =>
        let n ← item.int?
        return Decimal.toFloat (n < 0) ⟨n.natAbs, 0⟩

/-- A list of what a reader accepts. -/
def Item.listOf {β : Type} (read : Item → Reading β) (item : Item) : Reading (List β) :=
  item.read fun item ↦ do
    let items ← item.items?
    items.mapM read

/-- The name of an entry, as a text or as its bytes. -/
def Item.name (item : Item) : Reading String :=
  item.read fun item ↦ do
    match item with
    | .text name => return name
    | .bytes name => return (decodeText name).getD ""
    | _ => failure

/-- Pass over a value. Numbers have to fit a word, and a function is no value. The fuel bounds the
depth. -/
def Item.pass : Nat → Item → Reading Unit
  | 0, _ => failure
  | fuel + 1, item =>
      item.read fun
        | .int n | .long n => if Word.signed64.holds n then pure () else failure
        | .list items | .tuple items | .set items | .frozenset items =>
            items.forM (Item.pass fuel)
        | .dict entries =>
            entries.forM fun (key, value) ↦ do
              Item.pass fuel key
              Item.pass fuel value
        | .global _ => failure
        | .kept _ => failure
        | _ => pure ()

/-- The shape and the data of an array, as far as they have been read. -/
structure ArrayParts where
  shape : Option (List Nat) := none
  data : Option (List Float) := none

/-- Read an entry of the dictionary of an array. -/
def ArrayParts.add (fuel : Nat) (parts : ArrayParts) (entry : Item × Item) :
    Reading ArrayParts := do
  let name ← entry.1.name
  if name = "shape" then
    if parts.shape.isSome then failure
    return { parts with shape := some (← entry.2.listOf Item.size) }
  else if name = "data" then
    if parts.data.isSome then failure
    return { parts with data := some (← entry.2.listOf Item.float) }
  else
    entry.2.pass fuel
    return parts

/-- The array that an item describes. -/
def Item.array (fuel : Nat) (item : Item) : Reading (StoredArray Float) :=
  item.read fun item ↦ do
    match item with
    | .dict entries =>
        let parts ← entries.foldlM (ArrayParts.add fuel) {}
        return ⟨← parts.shape, ← parts.data⟩
    | item =>
        match ← item.items? with
        | shape :: data :: _ => return ⟨← shape.listOf Item.size, ← data.listOf Item.float⟩
        | _ => failure

/-- The array that a pickle describes. There may be nothing behind its last operation. -/
def decode? (bytes : List UInt8) : Option (StoredArray Float) := do
  let length := bytes.length
  let (item, memo, rest) ← Machine.run (length + 1) .start bytes
  let array ← (item.array ((length + 2) * (length + 2))).run' memo
  if rest.isEmpty then some array else none

end Moire.Pickle
