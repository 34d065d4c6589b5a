import Moire.Decimal.Layout

/-!
# JSON values and their text

A JSON value keeps whole numbers of the 64-bit ranges apart from reals, and the members of an
object in their order. `Json.compact` writes a value on one line, and `Json.pretty` one member per
line with two blanks per level. A real that is not finite is written as `null`.
-/

namespace Moire

/-- A JSON value. -/
inductive Json where
  | null
  | bool (value : Bool)
  /-- A whole number between the least signed and the largest unsigned 64-bit integer. -/
  | integer (value : Int)
  | real (value : Float)
  | string (value : String)
  | array (items : List Json)
  | object (members : List (String × Json))
  /-- A text whose escapes name no characters, or an object with such a text for a name. It may be
  passed over, but it is nothing. -/
  | unreadable
  deriving Inhabited

namespace Json

/-- A natural number. -/
def count (n : Nat) : Json := .integer n

/-- A list of reals. -/
def reals (values : List Float) : Json := .array (values.map .real)

/-- A list of counts. -/
def counts (values : List Nat) : Json := .array (values.map count)

/-- A list of texts. -/
def strings (values : List String) : Json := .array (values.map .string)

/-- A table of reals. -/
def table (rows : List (List Float)) : Json := .array (rows.map reals)

/-- A value that may be missing. -/
def optional {β : Type} (encode : β → Json) : Option β → Json
  | some value => encode value
  | none => .null

/-- The member of an object under a name. -/
def member? (name : String) : Json → Option Json
  | .object members => members.lookup name
  | _ => none

/-- The lower-case hexadecimal digit of a number below sixteen. -/
def hexDigit (n : Nat) : Char :=
  Nat.digitChar (n % 16)

/-- A character inside a quoted text. -/
def escape (c : Char) : List Char :=
  if c = '"' then ['\\', '"']
  else if c = '\\' then ['\\', '\\']
  else if c = '\n' then ['\\', 'n']
  else if c = '\r' then ['\\', 'r']
  else if c = '\t' then ['\\', 't']
  else if c = '\x08' then ['\\', 'b']
  else if c = '\x0c' then ['\\', 'f']
  else if c.toNat < 32 then
    ['\\', 'u', '0', '0', hexDigit (c.toNat / 16), hexDigit c.toNat]
  else [c]

/-- A text in quotes. -/
def quote (text : String) : String :=
  "\"" ++ String.ofList (text.toList.flatMap escape) ++ "\""

/-- The text of a real. -/
def realText (x : Float) : String :=
  (Layout.document? x).getD "null"

mutual

/-- A value on one line. -/
def compact : Json → String
  | .null => "null"
  | .bool true => "true"
  | .bool false => "false"
  | .integer n => Int.repr n
  | .real x => realText x
  | .string text => quote text
  | .array items => "[" ++ String.intercalate "," (compactItems items) ++ "]"
  | .object members => "\x7b" ++ String.intercalate "," (compactMembers members) ++ "\x7d"
  | .unreadable => "null"

/-- The items of an array, each on one line. -/
def compactItems : List Json → List String
  | [] => []
  | item :: rest => compact item :: compactItems rest

/-- The members of an object, each on one line. -/
def compactMembers : List (String × Json) → List String
  | [] => []
  | (name, value) :: rest => (quote name ++ ":" ++ compact value) :: compactMembers rest

end

/-- A line break followed by the indentation of a level. -/
def newline (level : Nat) : String :=
  "\n" ++ String.ofList (List.replicate (2 * level) ' ')

/-- Lines between an opening and a closing bracket. -/
def bracketed (opening closing : String) (level : Nat) (lines : List String) : String :=
  if lines.isEmpty then opening ++ closing
  else
    opening ++ String.intercalate "," (lines.map fun line ↦ newline (level + 1) ++ line)
      ++ newline level ++ closing

mutual

/-- A value with one member per line, at an indentation level. -/
def prettyAt (level : Nat) : Json → String
  | .array items => bracketed "[" "]" level (prettyItems (level + 1) items)
  | .object members => bracketed "\x7b" "\x7d" level (prettyMembers (level + 1) members)
  | .null => "null"
  | .bool value => compact (.bool value)
  | .integer n => Int.repr n
  | .real x => realText x
  | .string text => quote text
  | .unreadable => "null"

/-- The items of an array at an indentation level. -/
def prettyItems (level : Nat) : List Json → List String
  | [] => []
  | item :: rest => prettyAt level item :: prettyItems level rest

/-- The members of an object at an indentation level. -/
def prettyMembers (level : Nat) : List (String × Json) → List String
  | [] => []
  | (name, value) :: rest =>
      (quote name ++ ": " ++ prettyAt level value) :: prettyMembers level rest

end

/-- A value with one member per line. -/
def pretty (value : Json) : String := prettyAt 0 value

end Json

end Moire
