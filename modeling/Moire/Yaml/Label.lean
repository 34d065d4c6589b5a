import Moire.Yaml.Basic
import Moire.Yaml.Scalar
import Moire.Yaml.Source

/-!
# Labels, tags and directives

The names that stand in front of a node, and the directives in front of a document. A tag is a
handle and a suffix; a directive may say what a handle stands for. The suffix of a tag consists of
the characters of addresses, among which the octets of further characters are escaped.
-/

namespace Moire.Yaml

/-- The name behind the mark of a label or of a reference. -/
def labelAt (c : Cursor) : Option (String × Cursor) :=
  let (name, stop) := (c.pass 1).span isWord
  let ends := startsBlank stop.rest ||
    stop.rest.head?.any fun d ↦ ['?', ':', ',', ']', '\x7d', '%', '@', '\x60'].contains d
  if name.isEmpty || !ends then none else some (String.ofList name, stop)

/-- The character may stand in an address. The marks of lists may only do so in one that is set
apart. -/
def isAddress (apart : Bool) (c : Char) : Bool :=
  isWord c ||
    [';', '/', '?', ':', '@', '&', '=', '+', '$', '.', '!', '~', '*', '\'', '(', ')'].contains c ||
    (apart && [',', '[', ']'].contains c)

/-- The number of octets that follow the first one of a character. -/
def octetsBehind? (octet : Nat) : Option Nat :=
  if octet < 0x80 then some 0
  else if 0xc0 ≤ octet ∧ octet < 0xe0 then some 1
  else if 0xe0 ≤ octet ∧ octet < 0xf0 then some 2
  else if 0xf0 ≤ octet ∧ octet < 0xf8 then some 3
  else none

/-- The octets of an address, and the number of characters in which they are written. So many octets
of a character are still missing. -/
def addressFrom (apart : Bool) (missing : Nat) : List Char → Option (List UInt8 × Nat)
  | '%' :: a :: b :: rest => do
      let octet ← readBase? 16 [a, b]
      let missing ←
        if missing = 0 then octetsBehind? octet
        else if 0x80 ≤ octet ∧ octet < 0xc0 then some (missing - 1)
        else none
      let (octets, length) ← addressFrom apart missing rest
      return (octet.toUInt8 :: octets, length + 3)
  | c :: rest =>
      if missing ≠ 0 || c = '%' then none
      else if isAddress apart c then do
        let (octets, length) ← addressFrom apart 0 rest
        return (c.toNat.toUInt8 :: octets, length + 1)
      else some ([], 0)
  | [] => if missing = 0 then some ([], 0) else none

/-- The octets of an address up to the first that is zero, which may be none at all, and the place
behind it. -/
def addressAt (apart : Bool) (c : Cursor) : Option (List UInt8 × Cursor) := do
  let (octets, length) ← addressFrom apart 0 c.rest
  return (octets.takeWhile (· ≠ 0), c.pass length)

/-- The octets of an address of one character at least. -/
def someAddressAt (apart : Bool) (c : Cursor) : Option (List UInt8 × Cursor) := do
  let (octets, stop) ← addressAt apart c
  if stop.index = c.index then none else some (octets, stop)

/-- The octets of a word. -/
def wordOctets (word : List Char) : List UInt8 :=
  word.map fun c ↦ c.toNat.toUInt8

/-- The handle and the suffix of the tag at a place, without what may follow it. -/
def tagParts (c : Cursor) : Option (String × List UInt8 × Cursor) :=
  match c.rest with
  | '!' :: '<' :: _ => do
      let (suffix, stop) ← someAddressAt true (c.pass 2)
      if stop.rest.head? = some '>' then some ("", suffix, stop.pass 1) else none
  | _ => do
      let (word, stop) := (c.pass 1).span isWord
      if stop.rest.head? = some '!' then do
        let (suffix, stop) ← someAddressAt false (stop.pass 1)
        return ("!" ++ String.ofList word ++ "!", suffix, stop)
      else do
        let (more, stop) ← addressAt false stop
        let suffix := wordOctets word ++ more
        return if suffix.isEmpty then ("", [0x21], stop) else ("!", suffix, stop)

/-- The handle and the suffix of the tag at a place. A blank follows it, or in brackets a comma. -/
def tagAt (inFlow : Bool) (c : Cursor) : Option (String × List UInt8 × Cursor) := do
  let (handle, suffix, stop) ← tagParts c
  if startsBlank stop.rest || (inFlow && stop.rest.head? = some ',') then
    some (handle, suffix, stop)
  else none

/-- A directive. -/
inductive Directive where
  | version (major minor : Nat)
  | handle (name : String) (meaning : List UInt8)
  deriving Repr

/-- A number of at most nine digits. -/
def versionNumber (c : Cursor) : Option (Nat × Cursor) := do
  let (digits, stop) := c.span Char.isDigit
  let n ← readDigits? digits
  if digits.length ≤ 9 then some (n, stop) else none

/-- What stands behind the name of a directive. -/
def directiveValue (name : String) (c : Cursor) : Option (Directive × Cursor) :=
  if name = "YAML" then do
    let (major, stop) ← versionNumber c
    if stop.rest.head? ≠ some '.' then none
    let (minor, stop) ← versionNumber (stop.pass 1)
    return (.version major minor, stop)
  else if name = "TAG" then do
    if c.rest.head? ≠ some '!' then none
    let (word, stop) := (c.pass 1).span isWord
    let closed := stop.rest.head? = some '!'
    if !closed && !word.isEmpty then none
    let handle := if closed then "!" ++ String.ofList word ++ "!" else "!"
    let stop := if closed then stop.pass 1 else stop
    let (blanks, stop) := stop.span isBlank
    if blanks.isEmpty then none
    let (meaning, stop) ← someAddressAt true stop
    if startsBlank stop.rest then some (.handle handle meaning, stop) else none
  else none

/-- The directive at a place, up to the end of its line. -/
def directiveAt (c : Cursor) : Option (Directive × Cursor) := do
  let (name, stop) := (c.pass 1).span isWord
  if name.isEmpty || !startsBlank stop.rest then none
  let (directive, stop) ← directiveValue (String.ofList name) (stop.span isBlank).2
  let stop := stop.passComment
  if startsBreak stop.rest then some (directive, stop.passBreak) else none

end Moire.Yaml
