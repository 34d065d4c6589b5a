import Moire.Yaml.Access

/-!
# Values of their own kind

Where a place does not ask for a kind, a node has one of its own. A plain scalar is nothing, a truth
value, a whole number or a float if it reads like one, and a text otherwise. A core tag asks for its
kind, and local tags are refused. Whole numbers have to fit 64 bits; those that fit 128 bits only
are refused, and longer ones are floats.
-/

namespace Moire.Yaml

/-- A value of its own kind. Whole numbers with a minus sign are kept apart from counts. -/
inductive Value where
  | nothing
  | truth (value : Bool)
  | count (value : Nat)
  | negative (value : Int)
  | real (value : Float)
  | text (value : String)
  | list (items : List Value)
  | mapping (entries : List (Value × Value))
  deriving Inhabited

namespace Value

/-- A whole number as it is written. The number is missing where 64 bits do not hold it. -/
def ofInt? (text : String) : Option (Option Value) := do
  let n ← int? text
  if text.startsWith "-" then
    if Word.signed64.holds n then some (some (.negative n))
    else if Word.signed128.holds n then some none
    else none
  else if Word.unsigned64.holds n then some (some (.count n.toNat))
  else if Word.unsigned128.holds n then some none
  else none

/-- The value of a plain scalar without a tag. -/
def ofPlain? (text : String) : Option Value :=
  if text = "" || isNull text then some .nothing
  else
    match bool? text with
    | some value => some (.truth value)
    | none =>
        match ofInt? text with
        | some value => value
        | none =>
            match if hasLeadingZero text.toList then none else float? text with
            | some value => some (.real value)
            | none => some (.text text)

/-- The value of a scalar. -/
def ofScalar? (tag : Option Tag) (style : Style) (text : String) : Option Value :=
  match tag with
  | none => if style = .plain then ofPlain? text else some (.text text)
  | some tag =>
      if tag.localName?.isSome then none
      else if tag = .core "bool" then (bool? text).map .truth
      else if tag = .core "int" then (ofInt? text).join
      else if tag = .core "float" then (float? text).map .real
      else if tag = .core "null" then if isNull text then some .nothing else none
      else if tag.isLocal && style = .plain then ofPlain? text
      else some (.text text)

/-- The collection has no local tag. -/
def isOpenTo (tag : Option Tag) : Bool := (tag.bind Tag.localName?).isNone

/-- The value of a node, in which collections nest at most so deep. -/
def ofNode : Nat → Yaml → Reading Value
  | 0, node => do
      match ← follow node with
      | .scalar tag style content => ofScalar? tag style content
      | _ => failure
  | depth + 1, node => do
      match ← follow node with
      | .scalar tag style content => ofScalar? tag style content
      | .list tag items =>
          if isOpenTo tag then return .list (← items.mapM (ofNode depth)) else failure
      | .mapping tag entries =>
          if isOpenTo tag then
            return .mapping (← entries.mapM fun (key, value) ↦ do
              return (← ofNode depth key, ← ofNode depth value))
          else failure
      | _ => failure

/-- A float, or a whole number. -/
def real? : Value → Option Float
  | .count n => some (Decimal.toFloat false ⟨n, 0⟩)
  | .negative n => some (Decimal.toFloat (n < 0) ⟨n.natAbs, 0⟩)
  | .real x => some x
  | _ => none

/-- A count that a word holds. -/
def countIn? (word : Word) : Value → Option Nat
  | .count n => if word.holds n then some n else none
  | .negative n => if word.holds n then some n.toNat else none
  | _ => none

end Value

end Moire.Yaml
